import RowTyping.Proofs.Check.Recorded

/-!
# Declarations without errors

A declaration that is not entered as it stands leaves an error. So after a pass over declarations
that ends without one, each of them has been entered with all its parts: traits with all their
operations (`Checker.TraitsComplete`), and implementations, one for each trait and type, with a task
for each operation (`Checker.ImplsComplete`). The passes are followed with the list of what is done
so far.
-/

namespace RowTyping

open List

/-- What holds after each step of a fold, of what is done and of the state, holds at its end. -/
theorem foldl_history {α β : Type} {P : List α → β → Prop} {f : β → α → β} {as : List α} {b : β}
    (hb : P [] b) (hstep : ∀ done b, P done b → ∀ a ∈ as, P (done ++ [a]) (f b a)) :
    P as (as.foldl f b) := by
  have hrun (todo done : List α) (b : β) (htodo : ∀ a ∈ todo, a ∈ as) (h : P done b) :
      P (done ++ todo) (todo.foldl f b) := by
    induction todo generalizing done b with
    | nil =>
      rw [append_nil]
      exact h
    | cons a todo ih =>
      rw [forall_mem_cons] at htodo
      have hrest := ih (done ++ [a]) (f b a) htodo.2 (hstep done b h a htodo.1)
      rwa [append_assoc] at hrest
  exact hrun as [] b (fun _ ha => ha) hb

theorem nodup_map_snoc {α κ : Type} {f : α → κ} {l : List α} {a : α} (h : (l.map f).Nodup)
    (hnew : ∀ b ∈ l, f b ≠ f a) : ((l ++ [a]).map f).Nodup := by
  rw [map_append, nodup_append]
  refine ⟨h, nodup_singleton _, fun k hk k' hk' => ?_⟩
  obtain ⟨b, hb, rfl⟩ := mem_map.mp hk
  rw [mem_singleton.mp hk']
  exact hnew b hb

/-- Exactly the declarations that are done are entered, each under a key of its own. -/
structure EntersAll {α κ β : Type} (key : α → κ) (get? : κ → Option β) (Gives : α → β → Prop)
    (done : List α) : Prop where
  nodup : (done.map key).Nodup
  entered : ∀ a ∈ done, ∃ b, get? (key a) = some b ∧ Gives a b
  only : ∀ {k b}, get? k = some b → ∃ a ∈ done, key a = k

section EntersAll

variable {α κ β : Type} [DecidableEq κ] {key : α → κ} {get? get?' : κ → Option β}
  {Gives Gives' : α → β → Prop} {done : List α}

omit [DecidableEq κ] in
theorem EntersAll.mono (h : EntersAll key get? Gives done) (hget : ∀ k, get?' k = get? k)
    (hkept : ∀ a b, Gives a b → Gives' a b) : EntersAll key get?' Gives' done where
  nodup := h.nodup
  entered a ha := by
    obtain ⟨b, hb, hgives⟩ := h.entered a ha
    exact ⟨b, (hget _).trans hb, hkept a b hgives⟩
  only hb := h.only ((hget _).symm.trans hb)

/-- A declaration with a new key is entered beside the others. -/
theorem EntersAll.insert {a : α} {b : β} (h : EntersAll key get? Gives done)
    (hnone : get? (key a) = none) (hget : ∀ k, get?' k = if k = key a then some b else get? k)
    (hkept : ∀ a b, Gives a b → Gives' a b) (hgives : Gives' a b) :
    EntersAll key get?' Gives' (done ++ [a]) := by
  have hothers : ∀ a' ∈ done, key a' ≠ key a := fun a' ha' heq => by
    obtain ⟨b', hb', -⟩ := h.entered a' ha'
    rw [heq, hnone] at hb'
    cases hb'
  refine ⟨nodup_map_snoc h.nodup hothers, forall_mem_append.mpr ⟨fun a' ha' => ?_,
    forall_mem_singleton.mpr ⟨b, (hget _).trans (if_pos rfl), hgives⟩⟩, fun {k b'} hb' => ?_⟩
  · obtain ⟨b', hb', hgives'⟩ := h.entered a' ha'
    exact ⟨b', (hget _).trans ((if_neg (hothers a' ha')).trans hb'), hkept a' b' hgives'⟩
  · rw [hget] at hb'
    split at hb'
    · exact ⟨a, mem_append_right _ (mem_singleton_self a), Eq.symm ‹_›⟩
    · obtain ⟨a', ha', heq⟩ := h.only hb'
      exact ⟨a', mem_append_left _ ha', heq⟩

end EntersAll

/-- The trait has all operations of its declaration, and these have different names. -/
def TraitDecl.GivesAll (d : TraitDecl) (t : Trait) : Prop :=
  t.methods.map (·.name) = d.methods.map (·.name.node) ∧ (t.methods.map (·.name)).Nodup

/-- What an implementation is found by: its trait and its type. -/
def ImplDecl.key (block : ImplDecl) : String × String :=
  (block.traitName.node, block.typeName.node)

/-- The implementation is what the block says: it defines exactly the operations of the trait, each
once, and all of them are to be checked. -/
structure ImplDecl.GivesAll (c : Checker) (block : ImplDecl) (t : Trait) (head : Ty)
    (impl : Implementation) : Prop where
  typeName : impl.typeName = block.typeName.node
  methods : impl.methods = block.methods.map (·.name.node)
  nodup : impl.methods.Nodup
  trait : c.registry.traits.get? block.traitName.node = some t
  takes : c.registry.dataTypes.implHead? block.typeName.node = some (head, t.paramArity)
  all : ∀ method ∈ t.methods, method.name ∈ impl.methods
  tasks : ∀ d ∈ block.methods, ∃ method, t.method? d.name.node = some method ∧
    Checker.implTask block t head d method ∈ c.declared

theorem ImplDecl.GivesAll.mono {c c' : Checker} {block : ImplDecl} {t : Trait} {head : Ty}
    {impl : Implementation} (h : block.GivesAll c t head impl)
    (htraits : ∀ name, c'.registry.traits.get? name = c.registry.traits.get? name)
    (hdata : c'.registry.dataTypes = c.registry.dataTypes)
    (hdeclared : ∀ task ∈ c.declared, task ∈ c'.declared) : block.GivesAll c' t head impl where
  typeName := h.typeName
  methods := h.methods
  nodup := h.nodup
  trait := (htraits _).trans h.trait
  takes := hdata ▸ h.takes
  all := h.all
  tasks d hd := by
    obtain ⟨method, hmethod, htask⟩ := h.tasks d hd
    exact ⟨method, hmethod, hdeclared _ htask⟩

theorem Traits.impl?_insertImpl (ts : Traits) (impl : Implementation) (k : String × String) :
    (ts.insertImpl impl).impl? k.1 k.2 =
      if k = (impl.traitName, impl.typeName) then some impl else ts.impl? k.1 k.2 := by
  obtain ⟨traitName, typeName⟩ := k
  simp only [impl?, insertImpl, Dict.get?_insert, Prod.mk.injEq]
  by_cases htrait : traitName = impl.traitName
  · subst htrait
    simp only [if_true, Option.bind_some, Dict.get?_insert, true_and]
    by_cases htype : typeName = impl.typeName
    · simp [htype]
    · rcases hfound : ts.impls.get? impl.traitName with _ | found
      · simp only [htype, if_false, Option.getD_none, Option.bind_none]
        exact Dict.get?_empty typeName
      · simp [htype]
  · simp [htrait]

namespace Checker

variable {m : Module} {c c' c₁ : Checker} {done : List TraitDecl}

/-! ## What each step leaves -/

/-- Declaring definitions changes neither types nor traits and drops no task. -/
structure Defines (c c' : Checker) : Prop where
  registry : c'.registry = c.registry
  declared : ∀ task ∈ c.declared, task ∈ c'.declared
  diagnostics : c.diagnostics <+: c'.diagnostics

theorem Defines.refl (c : Checker) : Defines c c :=
  ⟨rfl, fun _ htask => htask, prefix_rfl⟩

theorem Defines.trans (h : Defines c c₁) (h' : Defines c₁ c') : Defines c c' where
  registry := h'.registry.trans h.registry
  declared task htask := h'.declared task (h.declared task htask)
  diagnostics := h.diagnostics.trans h'.diagnostics

theorem Idles.defines {names : List String} (h : Idles names c c') : Defines c c' :=
  ⟨h.registry, fun _ htask => h.declared.symm ▸ htask, h.diagnostics⟩

theorem Declares.defines {d : Definition} (h : Declares d c c') : Defines c c' := by
  cases h with
  | duplicate _ hidles => exact hidles.defines
  | waits => exact ⟨rfl, fun _ htask => htask, prefix_rfl⟩
  | failed _ _ hidles => exact hidles.defines
  | signed => exact ⟨rfl, fun _ htask => mem_append_left _ htask, prefix_rfl⟩

/-! ## Traits -/

/-- Exactly the traits that are done are entered, with all their operations. -/
abbrev TraitsComplete (done : List TraitDecl) (c : Checker) : Prop :=
  EntersAll (·.name.node) c.registry.traits.get? TraitDecl.GivesAll done

/-- The operations of a trait are entered, each under a name of its own, unless there is an
error. -/
theorem declareMethods_complete (traits : List String) (d : TraitDecl) (param : TypeVar)
    (c : Checker) :
    let state := d.methods.foldl (declareMethod traits d param) ([], c)
    Defines c state.2 ∧ (state.2.HasError ∨ state.1.map (·.name) = d.methods.map (·.name.node) ∧
      (state.1.map (·.name)).Nodup) := by
  refine foldl_history (P := fun (done : List MethodDecl) (state : List Method × Checker) =>
    Defines c state.2 ∧ (state.2.HasError ∨
      state.1.map (·.name) = done.map (·.name.node) ∧ (state.1.map (·.name)).Nodup)) (b := ([], c))
    ⟨.refl c, .inr ⟨rfl, nodup_nil⟩⟩ fun done state hstate o _ => ?_
  obtain ⟨methods, c₁⟩ := state
  obtain ⟨hdefines, hdone⟩ := hstate
  dsimp only at hdefines hdone
  rcases declareMethod_cases traits d param methods c₁ o with
    ⟨c', heq, hrejects⟩ | ⟨givens, σ, r, -, -, hnew, heq⟩
  · rw [heq]
    exact ⟨hdefines.trans hrejects.toIdles.defines, .inl hrejects.error⟩
  · rw [heq]
    have hstep : Defines c₁ (({ c₁ with fresh := r.fresh }.bindGlobal o.name.node σ).addSignature
        o.name.node σ o.span) := ⟨rfl, fun _ htask => htask, prefix_rfl⟩
    refine ⟨hdefines.trans hstep, hdone.imp id fun ⟨hnames, hnodup⟩ =>
      ⟨?_, nodup_map_snoc hnodup hnew⟩⟩
    rw [map_append, map_append, hnames]
    rfl

/-- A trait is turned down, or it is entered under a new name with all its operations, unless there
is an error. -/
theorem declareTrait_enters (traits : List String) (c : Checker) (d : TraitDecl) :
    Rejects [] c (declareTrait traits c d) ∨
    ∃ (c' : Checker) (t : Trait), declareTrait traits c d =
      { c' with registry := c'.registry.insertTrait t } ∧
      Defines c c' ∧ c.registry.traits.get? d.name.node = none ∧ t.name = d.name.node ∧
      (c'.HasError ∨ d.GivesAll t) := by
  rcases declareTrait_cases traits c d with hrejects | ⟨n, hnone, -, heq⟩
  · exact .inl hrejects
  · have hfirst : Defines c c.freshTypeVar.2 := ⟨rfl, fun _ htask => htask, prefix_rfl⟩
    obtain ⟨hdefines, hmethods⟩ :=
      declareMethods_complete traits d c.freshTypeVar.1 c.freshTypeVar.2
    exact .inr ⟨_, _, heq, hfirst.trans hdefines, hnone, rfl, hmethods⟩

theorem declareTrait_complete (traits : List String) (d : TraitDecl)
    (hdone : c.HasError ∨ TraitsComplete done c) :
    (declareTrait traits c d).HasError ∨
    TraitsComplete (done ++ [d]) (declareTrait traits c d) := by
  rcases declareTrait_enters traits c d with hrejects | ⟨c', t, heq, hdefines, hnone, hname, hgives⟩
  · exact .inl hrejects.error
  · rw [heq]
    rcases hgives with herror | hgives
    · exact .inl herror
    · refine hdone.imp (fun herror => herror.mono hdefines.diagnostics) fun hdone =>
        hdone.insert hnone (fun name => ?_) (fun _ _ h => h) hgives
      rw [← hname, ← hdefines.registry]
      exact Dict.get?_insert ..

theorem impls_declareTrait (traits : List String) (c : Checker) (d : TraitDecl) :
    (declareTrait traits c d).registry.traits.impls = c.registry.traits.impls := by
  rcases declareTrait_enters traits c d with hrejects | ⟨c', t, heq, hdefines, -⟩
  · rw [hrejects.registry]
  · rw [heq, ← hdefines.registry]
    rfl

/-! ## Implementations -/

/-- Exactly the blocks that are done are entered, each for a trait and a type of its own. -/
abbrev ImplsComplete (done : List ImplDecl) (c : Checker) : Prop :=
  EntersAll ImplDecl.key (fun k => c.registry.traits.impl? k.1 k.2)
    (fun block impl => ∃ t head, block.GivesAll c t head impl) done

/-- The definitions of a block are operations of the trait, each with a task, unless there is an
error. -/
theorem declareImplMethods_complete (block : ImplDecl) (t : Trait) (head : Ty) (c : Checker) :
    let state := block.methods.foldl (declareImplMethod block t head) ([], c)
    Defines c state.2 ∧ (state.2.HasError ∨
      state.1 = block.methods.map (·.name.node) ∧ state.1.Nodup ∧
      ∀ d ∈ block.methods, ∃ method, t.method? d.name.node = some method ∧
        implTask block t head d method ∈ state.2.declared) := by
  refine foldl_history (P := fun (done : List Definition) (state : List String × Checker) =>
    Defines c state.2 ∧ (state.2.HasError ∨ state.1 = done.map (·.name.node) ∧ state.1.Nodup ∧
      ∀ d ∈ done, ∃ method, t.method? d.name.node = some method ∧
        implTask block t head d method ∈ state.2.declared))
    ⟨.refl c, .inr ⟨rfl, nodup_nil, nofun⟩⟩ fun done state hstate d _ => ?_
  obtain ⟨provided, c₁⟩ := state
  obtain ⟨hdefines, hdone⟩ := hstate
  dsimp only at hdefines hdone
  rcases declareImplMethod_cases block t head provided c₁ d with
    ⟨provided', c', heq, hrejects⟩ | ⟨method, hnew, hmethod, heq⟩
  · rw [heq]
    exact ⟨hdefines.trans hrejects.toIdles.defines, .inl hrejects.error⟩
  · rw [heq]
    have hstep :
        Defines c₁ { c₁ with declared := c₁.declared ++ [implTask block t head d method] } :=
      ⟨rfl, fun _ htask => mem_append_left _ htask, prefix_rfl⟩
    refine ⟨hdefines.trans hstep, hdone.imp (fun herror => herror.mono hstep.diagnostics) ?_⟩
    rintro ⟨rfl, hnodup, htasks⟩
    have hnames : done.map (·.name.node) ++ [d.name.node] = (done ++ [d]).map (·.name.node) := by
      rw [map_append, map_singleton]
    refine ⟨hnames, ?_, fun d' hd' => ?_⟩
    · dsimp only
      rw [hnames]
      exact nodup_map_snoc hnodup fun d' hd' heq => hnew (mem_map.mpr ⟨d', hd', heq⟩)
    · rcases mem_append.mp hd' with hd' | hd'
      · obtain ⟨method', hmethod', htask⟩ := htasks d' hd'
        exact ⟨method', hmethod', hstep.declared _ htask⟩
      · rw [mem_singleton.mp hd']
        exact ⟨method, hmethod, mem_append_right _ (mem_singleton_self _)⟩

/-- All operations of the trait are among those defined, unless there is an error. -/
theorem requireMethods_complete (block : ImplDecl) (provided : List String) (ms : List Method)
    (c : Checker) : (ms.foldl (requireMethod block provided) c).HasError ∨
      ∀ method ∈ ms, method.name ∈ provided := by
  refine foldl_history (P := fun (done : List Method) c' => HasError c' ∨
    ∀ method ∈ done, method.name ∈ provided) (.inr nofun) fun done c' hdone method _ => ?_
  rcases requireMethod_cases block provided c' method with hrejects | ⟨hmem, heq⟩
  · exact .inl hrejects.error
  · rw [heq]
    refine hdone.imp_right fun hdone method' hmethod' => ?_
    rcases mem_append.mp hmethod' with hmethod' | hmethod'
    · exact hdone method' hmethod'
    · rwa [mem_singleton.mp hmethod']

theorem declareImpl_complete {traits : List TraitDecl} {done : List ImplDecl} (block : ImplDecl)
    (hdone : c.HasError ∨ TraitsComplete traits c ∧ ImplsComplete done c) :
    (c.declareImpl block).HasError ∨
      TraitsComplete traits (c.declareImpl block) ∧
      ImplsComplete (done ++ [block]) (c.declareImpl block) := by
  rcases declareImpl_cases c block with hrejects | ⟨t, head, ht, hhead, hnone, heq⟩
  · exact .inl hrejects.error
  · rw [heq, declareImplOf]
    obtain ⟨hdefines, hmethods⟩ := declareImplMethods_complete block t head c
    rcases hrun : block.methods.foldl (declareImplMethod block t head) ([], c) with ⟨provided, c₁⟩
    rw [hrun] at hdefines hmethods
    dsimp only at hdefines hmethods ⊢
    have hrequire := requireMethods_idles block provided t.methods c₁
    have hall := requireMethods_complete block provided t.methods c₁
    generalize t.methods.foldl (requireMethod block provided) c₁ = c₂ at hrequire hall ⊢
    have hboth := hdefines.trans hrequire.defines
    rcases hmethods with herror | ⟨hprovided, hnodup, htasks⟩
    · exact .inl (herror.mono hrequire.diagnostics)
    rcases hall with herror | hall
    · exact .inl herror
    rcases hdone with herror | ⟨htraits, hdone⟩
    · exact .inl (herror.mono hboth.diagnostics)
    have hget (impl : Implementation) (k : String × String) :
        (c₂.registry.insertImpl impl).traits.impl? k.1 k.2 =
          if k = (impl.traitName, impl.typeName) then some impl
          else c.registry.traits.impl? k.1 k.2 := by
      rw [← hboth.registry]
      exact Traits.impl?_insertImpl ..
    refine .inr ⟨htraits.mono (fun name => ?_) fun _ _ h => h,
      hdone.insert hnone (hget _) (fun block' impl h => ?_)
      ⟨t, head, rfl, hprovided, hnodup, hboth.registry ▸ ht, hboth.registry ▸ hhead, hall,
        fun d hd => ?_⟩⟩
    · rw [hboth.registry]
      rfl
    · obtain ⟨t', head', h⟩ := h
      exact ⟨t', head', h.mono (fun name => congrArg (·.traits.get? name) hboth.registry)
        (congrArg (·.dataTypes) hboth.registry) hboth.declared⟩
    · obtain ⟨method, hmethod, htask⟩ := htasks d hd
      exact ⟨method, hmethod, hrequire.declared.symm ▸ htask⟩

/-! ## Modules -/

/-- The checker after the traits of a module are declared. -/
def afterTraits (m : Module) : Checker :=
  m.traitDecls.foldl (declareTrait (m.traitDecls.map (·.name.node))) (afterEffects m)

theorem afterTraits_complete (m : Module) :
    (afterTraits m).registry.traits.impls = {} ∧
      ((afterTraits m).HasError ∨ TraitsComplete m.traitDecls (afterTraits m)) := by
  have hnone := (recorded_afterEffects m).2
  refine foldl_history (P := fun done c => c.registry.traits.impls = {} ∧
    (c.HasError ∨ TraitsComplete done c)) ⟨?_, .inr ⟨nodup_nil, nofun, ?_⟩⟩
    fun done c hc d _ => ⟨(impls_declareTrait _ c d).trans hc.1, declareTrait_complete _ d hc.2⟩
  · rw [hnone]
  · intro name t ht
    rw [hnone] at ht
    cases ht

/-- After declaring a module there is an error, or exactly its traits and implementations are
entered, with all their operations. -/
theorem declareModule_complete (m : Module) :
    (declareModule {} m).HasError ∨ TraitsComplete m.traitDecls (declareModule {} m) ∧
      ImplsComplete m.implDecls (declareModule {} m) := by
  obtain ⟨himpls, htraits⟩ := afterTraits_complete m
  have hstart : ImplsComplete [] (afterTraits m) := by
    refine ⟨nodup_nil, nofun, fun {k impl} himpl => ?_⟩
    rw [Traits.impl?, himpls] at himpl
    cases himpl
  have hdone : (afterImpls m).HasError ∨ TraitsComplete m.traitDecls (afterImpls m) ∧
      ImplsComplete m.implDecls (afterImpls m) :=
    foldl_history (P := fun done c => HasError c ∨ TraitsComplete m.traitDecls c ∧
      ImplsComplete done c)
      (htraits.imp_right fun htraits => ⟨htraits, hstart⟩) fun done c hc block _ =>
        declareImpl_complete block hc
  have hdefines : Defines (afterImpls m) (declareModule {} m) :=
    foldl_induction (P := Defines (afterImpls m)) (.refl _) fun c hc d _ =>
      hc.trans (c.declares_declareDefinition d).defines
  have hget (name : String) := congrArg (·.traits.get? name) hdefines.registry
  refine hdone.imp (fun herror => herror.mono hdefines.diagnostics) fun ⟨htraits, himpls⟩ =>
    ⟨htraits.mono hget fun _ _ h => h,
      himpls.mono (fun k => ?_) fun _ _ ⟨t, head, h⟩ => ⟨t, head, ?_⟩⟩
  · exact congrArg (·.traits.impl? k.1 k.2) hdefines.registry
  · exact h.mono hget (congrArg (·.dataTypes) hdefines.registry) hdefines.declared

end Checker

end RowTyping
