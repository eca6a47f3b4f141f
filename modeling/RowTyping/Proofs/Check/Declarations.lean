import RowTyping.Proofs.Check.Waves
import RowTyping.Proofs.Infer.Resolve
import RowTyping.Proofs.Infer.Spending

/-!
# What a declaration does

A declaration is turned down with an error (`Checker.Rejects`), or what it declares is entered.
There is one lemma for each kind of declaration, and it names both outcomes. A name that gets a type
had none before, and its scheme is that of the written type in the scope that resolving it leaves
(`Checker.Resolves`). No declaration reports that a variable is unbound.
-/

namespace RowTyping

open List

/-! ## Declared names -/

/-- The names that a data type declares. -/
def DataDecl.names (d : DataDecl) : List String :=
  d.name.node :: d.variants.map (·.name.node)

/-- The names that an effect declares. -/
def EffectDecl.names (d : EffectDecl) : List String :=
  d.name.node :: d.operations.map (·.name.node)

/-- The names that a trait declares. -/
def TraitDecl.names (d : TraitDecl) : List String :=
  d.name.node :: d.methods.map (·.name.node)

/-- The names under which the operations of an implementation are reported. -/
def ImplDecl.labels (d : ImplDecl) : List String :=
  d.methods.map fun m => d.methodLabel m.name.node

/-- The names that every module starts with. -/
def predeclaredNames : List String :=
  DataDecl.maybe.names ++ EffectDecl.io.names

/-- The names that a module declares for types, effects, traits and what belongs to them, and the
labels of the operations of its implementations. -/
def Module.auxiliaryNames (m : Module) : List String :=
  m.dataDecls.flatMap (·.names) ++ m.effectDecls.flatMap (·.names) ++
    m.traitDecls.flatMap (·.names) ++ m.implDecls.flatMap (·.labels)

/-- The written type of an operation, which performs its effect. -/
def OperationDecl.written (o : OperationDecl) (effect : String) : TypeExpr :=
  .function o.params o.result (.row [effect] none)

/-- Every operation that mentions the parameter of a trait applies it to that many arguments. -/
def TraitDecl.TakesParam (d : TraitDecl) (n : Nat) : Prop :=
  ∀ m ∈ d.methods, ∀ k ∈ m.type.node.aritiesOf d.param.node, k = n

/-- The requirements are on variables of the scope. -/
def TypeScope.Bounds (scope : TypeScope) (givens : List Given) : Prop :=
  ∀ g ∈ givens, ∃ v, g.type = .var v ∧ scope.Has (.type v)

namespace Checker

variable {c c' c'' : Checker} {names : List String}

/-- What every step keeps a pass over a list keeps. -/
theorem foldl_induction {α β : Type} {P : β → Prop} {f : β → α → β} {l : List α} {b : β}
    (hb : P b) (hstep : ∀ b, P b → ∀ a ∈ l, P (f b a)) : P (l.foldl f b) := by
  induction l generalizing b with
  | nil => exact hb
  | cons a l ih =>
    exact ih (hstep b hb a (.head _)) fun b hb a ha =>
      hstep b hb a (.tail _ ha)

/-! ## Steps that enter nothing -/

/-- An error has been reported. -/
def HasError (c : Checker) : Prop :=
  ∃ d ∈ c.diagnostics, d.isError = true

/-- What has been entered: the checker without its supply, its diagnostics and its failed names. -/
def entered (c : Checker) : Checker :=
  { c with fresh := { supply := .pooled }, diagnostics := [], failed := [] }

/-- Nothing is entered. Variables may have been drawn, the given names may have failed, and what is
reported is not about unbound variables. -/
structure Idles (names : List String) (c c' : Checker) : Prop where
  fresh : c.fresh.Reaches c'.fresh
  entered : c'.entered = c.entered
  diagnostics : c.diagnostics <+: c'.diagnostics
  plain : ∀ diag ∈ c'.diagnostics, diag ∈ c.diagnostics ∨ ∀ n, Spares n diag.message
  kept : ∀ n ∈ c.failed, n ∈ c'.failed
  failed : ∀ n ∈ c'.failed, n ∈ c.failed ∨ n ∈ names

/-- Nothing is entered, and there is an error. -/
structure Rejects (names : List String) (c c' : Checker) : Prop extends Idles names c c' where
  error : c'.HasError

theorem HasError.mono (h : c.HasError) (hkept : c.diagnostics <+: c'.diagnostics) :
    c'.HasError := by
  obtain ⟨d, hd, herror⟩ := h
  exact ⟨d, hkept.subset hd, herror⟩

namespace Idles

theorem refl (c : Checker) : Idles names c c :=
  ⟨.refl, rfl, prefix_rfl, fun _ h => .inl h, fun _ h => h, fun _ h => .inl h⟩

theorem trans (h : Idles names c c') (h' : Idles names c' c'') : Idles names c c'' where
  fresh := h.fresh.trans h'.fresh
  entered := h'.entered.trans h.entered
  diagnostics := h.diagnostics.trans h'.diagnostics
  plain diag hdiag := (h'.plain diag hdiag).elim (h.plain diag) .inr
  kept n hn := h'.kept n (h.kept n hn)
  failed n hn := (h'.failed n hn).elim (h.failed n) .inr

theorem rejects (h : Idles names c c') (h' : Rejects names c' c'') : Rejects names c c'' :=
  ⟨h.trans h'.toIdles, h'.error⟩

variable (h : Idles names c c')

include h

theorem env : c'.env = c.env := congrArg (·.env) h.entered

theorem registry : c'.registry = c.registry := congrArg (·.registry) h.entered

theorem signatures : c'.signatures = c.signatures := congrArg (·.signatures) h.entered

theorem inferred : c'.inferred = c.inferred := congrArg (·.inferred) h.entered

theorem declared : c'.declared = c.declared := congrArg (·.declared) h.entered

theorem resolutions : c'.resolutions = c.resolutions := congrArg (·.resolutions) h.entered

end Idles

/-- Without names that may fail the failed ones stay the same. -/
theorem idles_of_fresh {f : Fresh} (h : c.fresh.Reaches f) : Idles names c { c with fresh := f } :=
  ⟨h, rfl, prefix_rfl, fun _ h => .inl h, fun _ h => h, fun _ h => .inl h⟩

theorem rejects_report {diag : Diagnostic} (herror : diag.isError = true)
    (h : ∀ n, Spares n diag.message) : Rejects names c (c.report diag) where
  fresh := .refl
  entered := rfl
  diagnostics := prefix_append _ _
  plain diag' hdiag := (mem_append.mp hdiag).imp_right fun hdiag => by
    rw [mem_singleton.mp hdiag]
    exact h
  kept _ hn := hn
  failed _ hn := .inl hn
  error := ⟨diag, mem_append_right _ (mem_singleton_self diag), herror⟩

theorem rejects_declarationError {message : String} {span : Span}
    (h : ∀ {n}, Spares n message) : Rejects names c (c.declarationError message span) :=
  rejects_report rfl fun _ => h

theorem rejects_duplicate (name : String) (span : Span) : Rejects names c (c.duplicate name span) :=
  rejects_declarationError spares_of_start

theorem Rejects.markFailed {name : String} (h : Rejects names c c') (hname : name ∈ names) :
    Rejects names c (c'.markFailed name) where
  __ := h
  kept n hn := Sorted.mem_insert.mpr (.inr (h.kept n hn))
  failed n hn := by
    rcases Sorted.mem_insert.mp hn with rfl | hn
    · exact .inr hname
    · exact h.failed n hn

/-! ## Resolved types and bounds -/

/-- Resolving written types fails with an error about them, or it draws variables for a scope. -/
theorem resolve_cases {α : Type} {act : ResolveM α} (hact : Resolve.Stepwise act) (c : Checker)
    (scope : TypeScope) :
    (∃ e c₁, c.resolve scope act = (.error e, c₁) ∧
      ∀ name, Rejects [name] c (c₁.bindingFailed name e)) ∨
    ∃ a r, act ⟨c.fresh, scope⟩ = .ok a r ∧ c.fresh.Reaches r.fresh ∧
      c.resolve scope act = (.ok (a, r.scope), { c with fresh := r.fresh }) := by
  have hspends := hact.spends ⟨c.fresh, scope⟩
  rcases hrun : act ⟨c.fresh, scope⟩ with ⟨a, r⟩ | ⟨e, r⟩
  · rw [hrun] at hspends
    exact .inr ⟨a, r, rfl, hspends, by simp only [resolve, EStateM.run, hrun]⟩
  · rw [hrun] at hspends
    have hplain := (hact.speaksPlainly ⟨c.fresh, scope⟩).error hrun
    refine .inl ⟨e, { c with fresh := r.fresh }, by simp only [resolve, EStateM.run,
      hrun], fun name => ?_⟩
    exact ((idles_of_fresh hspends).rejects (rejects_report rfl fun _ => hplain.spares)).markFailed
      (mem_singleton_self name)

theorem resolveBound_cases (names : List String) (c : Checker) (scope : TypeScope)
    (traits : List String) (b : Bound) :
    (∃ c', c.resolveBound scope traits b = (none, c') ∧ Rejects names c c') ∨
    ∃ v, scope.Has (.type v) ∧
      c.resolveBound scope traits b = (some ⟨b.traitName.node, .var v⟩, c) := by
  rw [resolveBound]
  split
  · exact .inl ⟨_, rfl, rejects_declarationError spares_of_start⟩
  · split
    · exact .inr ⟨_, TypeScope.has_of_type? ‹_›, rfl⟩
    · exact .inl ⟨_, rfl, rejects_declarationError spares_of_start⟩

/-- The requirements are resolved without a change, or those not in order are reported. -/
theorem resolveBounds_cases (names : List String) (c : Checker) (scope : TypeScope)
    (traits : List String) (bs : List Bound) :
    (∃ c', c.resolveBounds scope traits bs = (none, c') ∧ Rejects names c c') ∨
    ∃ givens, scope.Bounds givens ∧ c.resolveBounds scope traits bs = (some givens, c) := by
  induction bs generalizing c with
  | nil => exact .inr ⟨[], nofun, rfl⟩
  | cons b bs ih =>
    rw [resolveBounds]
    rcases c.resolveBound_cases names scope traits b with ⟨c₁, hb, hrejects⟩ | ⟨v, hv, hb⟩
    · -- the error stays while the other requirements are looked at
      rcases ih c₁ with ⟨c₂, hbs, hrejects₂⟩ | ⟨givens, -, hbs⟩
      · simp only [hb, hbs]
        exact .inl ⟨c₂, rfl, hrejects.toIdles.rejects hrejects₂⟩
      · simp only [hb, hbs]
        exact .inl ⟨c₁, rfl, hrejects⟩
    · rcases ih c with ⟨c₂, hbs, hrejects⟩ | ⟨givens, hgivens, hbs⟩
      · simp only [hb, hbs]
        exact .inl ⟨c₂, rfl, hrejects⟩
      · simp only [hb, hbs]
        exact .inr ⟨_, forall_mem_cons.mpr ⟨⟨v, rfl, hv⟩, hgivens⟩, rfl⟩

theorem resolveBoundsUntilError_cases (names : List String) (c : Checker) (scope : TypeScope)
    (traits : List String) (bs : List Bound) :
    (∃ c', c.resolveBoundsUntilError scope traits bs = (none, c') ∧ Rejects names c c') ∨
    ∃ givens, scope.Bounds givens ∧ c.resolveBoundsUntilError scope traits bs =
      (some givens, c) := by
  induction bs generalizing c with
  | nil => exact .inr ⟨[], nofun, rfl⟩
  | cons b bs ih =>
    rw [resolveBoundsUntilError]
    rcases c.resolveBound_cases names scope traits b with ⟨c₁, hb, hrejects⟩ | ⟨v, hv, hb⟩
    · simp only [hb]
      exact .inl ⟨c₁, rfl, hrejects⟩
    · rcases ih c with ⟨c₂, hbs, hrejects⟩ | ⟨givens, hgivens, hbs⟩
      · simp only [hb, hbs]
        exact .inl ⟨c₂, rfl, hrejects⟩
      · simp only [hb, hbs]
        exact .inr ⟨_, forall_mem_cons.mpr ⟨⟨v, rfl, hv⟩, hgivens⟩, rfl⟩

/-- The scheme is that of a written type which is resolved from a scope, with requirements on
variables of the scope that this leaves. -/
structure Resolves (c : Checker) (start : TypeScope) (w : TypeExpr) (givens : List Given)
    (σ : Scheme) (r : Resolver) : Prop where
  run : ∃ span, Resolve.type c.registry span w ⟨c.fresh, start⟩ = .ok σ.type r
  reaches : c.fresh.Reaches r.fresh
  bounds : r.scope.Bounds givens
  eq : σ = r.scope.scheme σ.type (groupByTrait givens)

/-! ## Effects -/

theorem operationType_eq {reg : Registry} {effect : String} (h : reg.hasEffect effect = true)
    (o : OperationDecl) :
    operationType reg effect o = Resolve.type reg o.span (o.written effect) := by
  simp [operationType, OperationDecl.written, Resolve.type, Resolve.effects, h]

theorem declareOperation_cases (c : Checker) {effect : String}
    (heffect : c.registry.hasEffect effect = true) (o : OperationDecl) :
    Rejects [o.name.node] c (declareOperation effect c o) ∨
    ∃ σ r, c.Resolves .empty (o.written effect) [] σ r ∧ c.env.hasGlobal o.name.node = false ∧
      declareOperation effect c o = { c with fresh := r.fresh }.bindGlobal o.name.node σ := by
  rw [declareOperation, operationType_eq heffect]
  have hact : Resolve.Stepwise (Resolve.type c.registry o.span (o.written effect)) := .type _
  rcases resolve_cases hact c .empty with
    ⟨e, c₁, hrun, hrejects⟩ | ⟨t, r, hrun, hreaches, hresolve⟩
  · simp only [hrun]
    exact .inl (hrejects _)
  · simp only [hresolve]
    split
    · exact .inl ((idles_of_fresh hreaches).rejects (rejects_duplicate _ _))
    · rename_i hnew
      exact .inr ⟨_, r, ⟨⟨_, hrun⟩, hreaches, nofun, rfl⟩, Bool.not_eq_true _ ▸ hnew, rfl⟩

/-! ## Traits -/

theorem declareMethod_cases (traits : List String) (d : TraitDecl) (param : TypeVar)
    (methods : List Method) (c : Checker) (m : MethodDecl) :
    (∃ c', declareMethod traits d param (methods, c) m = (methods, c') ∧
      Rejects [m.name.node] c c') ∨
    ∃ givens σ r, c.Resolves (TypeScope.empty.insertType d.param.node param) m.type.node
        (⟨d.name.node, .var param⟩ :: givens) σ r ∧
      c.env.hasGlobal m.name.node = false ∧ (∀ method ∈ methods, method.name ≠ m.name.node) ∧
      declareMethod traits d param (methods, c) m =
        (methods ++ [{ name := m.name.node, scheme := σ, span := m.span }],
          ({ c with fresh := r.fresh }.bindGlobal m.name.node σ).addSignature m.name.node σ
            m.span) := by
  rw [declareMethod]
  split
  · exact .inl ⟨_, rfl, rejects_declarationError spares_of_start⟩
  · rename_i hname
    have hact : Resolve.Stepwise (Resolve.type c.registry m.type.span m.type.node) := .type _
    rcases resolve_cases hact c (TypeScope.empty.insertType d.param.node param) with
      ⟨e, c₁, hrun, hrejects⟩ | ⟨t, r, hrun, hreaches, hresolve⟩
    · simp only [hrun]
      exact .inl ⟨_, rfl, hrejects _⟩
    · simp only [hresolve]
      have hidles : Idles [m.name.node] c { c with fresh := r.fresh } := idles_of_fresh hreaches
      rcases resolveBounds_cases [m.name.node] { c with fresh := r.fresh } r.scope traits
        m.given with ⟨c₂, hbounds, hrejects⟩ | ⟨givens, hgivens, hbounds⟩
      · simp only [hbounds]
        exact .inl ⟨c₂, rfl, hidles.rejects hrejects⟩
      · simp only [hbounds]
        split
        · exact .inl ⟨_, rfl, hidles.rejects (rejects_duplicate _ _)⟩
        · rename_i hnew
          have hleads : Resolve.Leads _ r := hact.leads hrun
          refine .inr ⟨givens, _, r,
            ⟨⟨_, hrun⟩, hreaches, forall_mem_cons.mpr ⟨⟨param, rfl, ?_⟩, hgivens⟩,
            rfl⟩, Bool.not_eq_true _ ▸ hnew, fun method hmethod heq => hname ?_, rfl⟩
          · exact hleads.keeps (TypeScope.has_insertType.mpr (.inr rfl))
          · exact any_eq_true.mpr ⟨method, hmethod, decide_eq_true heq⟩

theorem takesParam_of_paramArities {d : TraitDecl} {n : Nat} (h : ∀ k ∈ d.paramArities, k = n) :
    d.TakesParam n :=
  fun m hm k hk => h k (Sorted.mem_ofList.mpr (mem_flatMap.mpr ⟨m, hm, hk⟩))

theorem declareTrait_cases (traits : List String) (c : Checker) (d : TraitDecl) :
    Rejects [] c (declareTrait traits c d) ∨
    ∃ n, c.registry.traits.get? d.name.node = none ∧ d.TakesParam n ∧
      declareTrait traits c d = c.declareTraitAt traits d n := by
  rw [declareTrait]
  split
  · exact .inl (rejects_declarationError spares_of_start)
  · rename_i hnew
    have hnone : c.registry.traits.get? d.name.node = none := by simpa using hnew
    split
    · rename_i hnil
      exact .inr ⟨0, hnone, takesParam_of_paramArities (by rw [hnil]; exact nofun), rfl⟩
    · rename_i n hone
      refine .inr ⟨n, hnone, takesParam_of_paramArities fun k hk => ?_, rfl⟩
      rw [hone] at hk
      exact mem_singleton.mp hk
    · exact .inl (rejects_declarationError spares_of_start)

/-! ## Implementations -/

/-- The task of checking an operation of an implementation. -/
def implTask (block : ImplDecl) (t : Trait) (head : Ty) (d : Definition) (method : Method) :
    DeclaredTask :=
  let scheme := t.specialize head method.scheme
  { label := block.methodLabel d.name.node, definition := d, scheme, allowed := scheme.givens
    isReported := false }

theorem declareImplMethod_cases (block : ImplDecl) (t : Trait) (head : Ty) (provided : List String)
    (c : Checker) (d : Definition) :
    (∃ provided' c', declareImplMethod block t head (provided, c) d = (provided', c') ∧
      Rejects [] c c') ∨
    ∃ method, d.name.node ∉ provided ∧ t.method? d.name.node = some method ∧
      declareImplMethod block t head (provided, c) d =
        (provided ++ [d.name.node],
          { c with declared := c.declared ++ [implTask block t head d method] }) := by
  rw [declareImplMethod]
  split
  · exact .inl ⟨_, _, rfl, rejects_declarationError spares_of_start⟩
  · rename_i hnew
    dsimp only
    split
    · exact .inl ⟨_, _, rfl, rejects_declarationError spares_of_start⟩
    · rename_i method hmethod
      exact .inr ⟨method, by simpa using hnew, hmethod, rfl⟩

theorem requireMethod_cases (block : ImplDecl) (provided : List String) (c : Checker) (m : Method) :
    Rejects [] c (requireMethod block provided c m) ∨
      m.name ∈ provided ∧ requireMethod block provided c m = c := by
  rw [requireMethod]
  split
  · rename_i hmem
    exact .inr ⟨by simpa using hmem, rfl⟩
  · exact .inl (rejects_declarationError spares_of_start)

theorem requireMethods_idles (block : ImplDecl) (provided : List String) (ms : List Method)
    (c : Checker) : Idles [] c (ms.foldl (requireMethod block provided) c) := by
  refine foldl_induction (P := Idles [] c) (.refl c) fun c' hc' method _ => ?_
  rcases requireMethod_cases block provided c' method with hrejects | ⟨-, heq⟩
  · exact hc'.trans hrejects.toIdles
  · rwa [heq]

theorem declareImpl_cases (c : Checker) (block : ImplDecl) :
    Rejects [] c (c.declareImpl block) ∨
    ∃ t head, c.registry.traits.get? block.traitName.node = some t ∧
      c.registry.dataTypes.implHead? block.typeName.node = some (head, t.paramArity) ∧
      c.registry.traits.impl? block.traitName.node block.typeName.node = none ∧
      c.declareImpl block = c.declareImplOf block t head := by
  rw [declareImpl]
  split
  · exact .inl (rejects_declarationError spares_of_start)
  · rename_i t ht
    split
    · exact .inl (rejects_declarationError spares_of_start)
    · rename_i head arity hhead
      split
      · exact .inl (rejects_declarationError spares_of_start)
      · rename_i hnew
        split
        · exact .inl (rejects_report rfl fun _ => spares_of_start)
        · rename_i harity
          rw [not_not] at harity
          exact .inr ⟨t, head, ht, harity ▸ hhead, by simpa using hnew, rfl⟩

/-! ## Definitions -/

/-- The task of checking a definition against its own signature. -/
def signedTask (d : Definition) (σ : Scheme) : DeclaredTask :=
  { label := d.name.node, definition := d, scheme := σ, allowed := σ.givens, isReported := true }

/-- What declaring a definition can do. -/
inductive Declares (d : Definition) (c : Checker) : Checker → Prop where
  /-- Its name has a meaning already. -/
  | duplicate {c' : Checker}
      (known : c.env.hasGlobal d.name.node ∨ d.name.node ∈ namesOf c.inferred)
      (idles : Idles [] c c') : Declares d c c'
  /-- It waits to be inferred. -/
  | waits (unsigned : d.declared = none) (unknown : c.env.hasGlobal d.name.node = false)
      (new : d.name.node ∉ namesOf c.inferred) :
        Declares d c { c with inferred := c.inferred ++ [d] }
  /-- Its signature is not in order. -/
  | failed {c' : Checker} (signed : d.declared ≠ none) (failed : d.name.node ∈ c'.failed)
      (idles : Idles [d.name.node] c c') : Declares d c c'
  /-- It waits to be checked against its signature. -/
  | signed {written : Spanned TypeExpr} {givens : List Given} {σ : Scheme} {r : Resolver}
      (signed : d.declared = some written) (resolves : c.Resolves .empty written.node givens σ r)
      (unknown : c.env.hasGlobal d.name.node = false) (new : d.name.node ∉ namesOf c.inferred) :
      Declares d c { { c with fresh := r.fresh }.bindGlobal d.name.node σ with
        declared := c.declared ++ [signedTask d σ] }

theorem declares_declareSigned {d : Definition} {written : Spanned TypeExpr}
    (hwritten : d.declared = some written) (hnew : d.name.node ∉ namesOf c.inferred) :
    Declares d c (c.declareSigned d written) := by
  have hsigned : d.declared ≠ none := by simp [hwritten]
  have hmem (c : Checker) : d.name.node ∈ (c.markFailed d.name.node).failed :=
    Sorted.mem_insert.mpr (.inl rfl)
  rw [declareSigned]
  have hact : Resolve.Stepwise (Resolve.type c.registry written.span written.node) := .type _
  rcases resolve_cases hact c .empty with
    ⟨e, c₁, hrun, hrejects⟩ | ⟨t, r, hrun, hreaches, hresolve⟩
  · simp only [hrun]
    exact .failed hsigned (hmem _) (hrejects _).toIdles
  · simp only [hresolve]
    rcases resolveBoundsUntilError_cases [d.name.node] { c with fresh := r.fresh } r.scope
      c.registry.traits.traits.keys d.given with ⟨c₂, hbounds, hrejects⟩ | ⟨givens,
        hgivens, hbounds⟩
    · simp only [hbounds]
      exact .failed hsigned (hmem _) (((idles_of_fresh hreaches).rejects hrejects).markFailed
        (mem_singleton_self _)).toIdles
    · simp only [hbounds]
      split
      · exact .duplicate (.inl ‹_›)
          ((idles_of_fresh hreaches).rejects (rejects_duplicate _ _)).toIdles
      · rename_i hglobal
        exact .signed hwritten ⟨⟨_, hrun⟩, hreaches, hgivens, rfl⟩
          (Bool.not_eq_true _ ▸ hglobal) hnew

theorem declares_declareDefinition (c : Checker) (d : Definition) :
    Declares d c (c.declareDefinition d) := by
  have hany : c.inferred.any (·.name.node = d.name.node) ↔ d.name.node ∈ namesOf c.inferred := by
    simp [namesOf, any_eq_true]
  rw [declareDefinition]
  split
  · rename_i hnone
    split
    · rename_i hknown
      rw [Bool.or_eq_true, hany] at hknown
      exact .duplicate hknown (rejects_duplicate _ _).toIdles
    · rename_i hknown
      rw [Bool.or_eq_true, hany, not_or, Bool.not_eq_true] at hknown
      exact .waits hnone hknown.1 hknown.2
  · rename_i hsome
    split
    · rename_i hknown
      exact .duplicate (.inr (hany.mp hknown)) (rejects_duplicate _ _).toIdles
    · rename_i hnew
      exact declares_declareSigned hsome (mt hany.mpr hnew)

end Checker

end RowTyping
