import RowTyping.Proofs.Check.Constructors

/-!
# What declarations record

Everything that a checker knows while a module is declared comes from a declaration of the module
and is what that declaration says (`Checker.Recorded`). The data types are declared first. All
variables of other schemes are drawn after that, so no scheme mentions a parameter of a data type.
Each further declaration is rejected or enters what it declares.
-/

namespace RowTyping

open List

/-- The data types of a module, with the predeclared one unless its names are taken. -/
def Module.allDataDecls (m : Module) : List DataDecl :=
  if m.dataDecls.any DataDecl.shadowsMaybe then m.dataDecls else .maybe :: m.dataDecls

/-- The effects of a module, with the predeclared one unless its name is taken. -/
def Module.allEffectDecls (m : Module) : List EffectDecl :=
  if m.effectDecls.any (·.name.node = "IO") then m.effectDecls else .io :: m.effectDecls

/-- The name is predeclared or belongs to a declaration of the module that is no definition. -/
def Module.Reserves (m : Module) (n : String) : Prop :=
  n ∈ predeclaredNames ++ m.auxiliaryNames

section Reserves

variable {m : Module} {n : String}

theorem Module.reserves_data {d : DataDecl} (hd : d ∈ m.allDataDecls) (hn : n ∈ d.names) :
    m.Reserves n := by
  have hd' : d = .maybe ∨ d ∈ m.dataDecls := by
    rw [allDataDecls] at hd
    split at hd
    · exact .inr hd
    · exact mem_cons.mp hd
  simp only [Reserves, predeclaredNames, auxiliaryNames, mem_append, mem_flatMap]
  rcases hd' with rfl | hd'
  · exact .inl (.inl hn)
  · exact .inr (.inl (.inl (.inl ⟨d, hd', hn⟩)))

theorem Module.reserves_effect {d : EffectDecl} (hd : d ∈ m.allEffectDecls) (hn : n ∈ d.names) :
    m.Reserves n := by
  have hd' : d = .io ∨ d ∈ m.effectDecls := by
    rw [allEffectDecls] at hd
    split at hd
    · exact .inr hd
    · exact mem_cons.mp hd
  simp only [Reserves, predeclaredNames, auxiliaryNames, mem_append, mem_flatMap]
  rcases hd' with rfl | hd'
  · exact .inl (.inr hn)
  · exact .inr (.inl (.inl (.inr ⟨d, hd', hn⟩)))

theorem Module.reserves_trait {d : TraitDecl} (hd : d ∈ m.traitDecls) (hn : n ∈ d.names) :
    m.Reserves n := by
  simp only [Reserves, auxiliaryNames, mem_append, mem_flatMap]
  exact .inr (.inl (.inr ⟨d, hd, hn⟩))

theorem Module.reserves_impl {block : ImplDecl} (hblock : block ∈ m.implDecls)
    (hn : n ∈ block.labels) :
    m.Reserves n := by
  simp only [Reserves, auxiliaryNames, mem_append, mem_flatMap]
  exact .inr (.inr ⟨block, hblock, hn⟩)

end Reserves

/-! ## What a declaration says -/

/-- The scheme is what the written type means, quantified over the scope in which it is read. The
scope has different variables of the region, and the requirements are on variables of the scope. -/
structure Scheme.Written (reg : Registry) (P : Region) (w : TypeExpr) (scope : TypeScope)
    (givens : List Given) (σ : Scheme) : Prop where
  reads : scope.Reads reg w σ.type
  distinct : scope.Distinct
  inside : ∀ {x}, scope.Has x → P x
  onVars : scope.Bounds givens
  eq : σ = scope.scheme σ.type (groupByTrait givens)

theorem TypeScope.mem_quantified_scheme {scope : TypeScope} {t : Ty} {givens : List Given}
    {x : Var} :
    x ∈ (scope.scheme t givens).quantified ↔ scope.Has x := by
  cases x with
  | type v => exact Scheme.mem_quantified_type
  | effect e => exact Scheme.mem_quantified_effect

/-- The scheme is that of an operation of a trait whose parameter is the given variable. -/
def MethodDecl.Gives (reg : Registry) (P : Region) (d : TraitDecl) (param : TypeVar)
    (m : MethodDecl) (σ : Scheme) : Prop :=
  ∃ scope bounds, scope.type? d.param.node = some param ∧
    Scheme.Written reg P m.type.node scope (⟨d.name.node, .var param⟩ :: bounds) σ

/-- The trait is what the declaration says, as far as its operations are in order. -/
structure TraitDecl.Gives (reg : Registry) (P : Region) (d : TraitDecl) (t : Trait) : Prop where
  name : t.name = d.name.node
  paramName : t.paramName = d.param.node
  takes : d.TakesParam t.paramArity
  methods : ∀ method ∈ t.methods, ∃ o ∈ d.methods, o.name.node = method.name ∧
    o.Gives reg P d t.param method.scheme

/-- Where the type of a global name comes from, if the given definitions may have been declared. -/
inductive Module.GivesGlobal (m : Module) (ds : List Definition) (reg : Registry) (P : Region)
    (name : String) (σ : Scheme) : Prop
  | constructor {n : String} {d : DataType} {con : Constructor} (hd : reg.dataTypes.get? n = some d)
      (hcon : con ∈ d.constructors) (hname : con.name = name) (hσ : σ = d.constructorScheme con)
  | operation {d : EffectDecl} {o : OperationDecl} {scope : TypeScope} (hd : d ∈ m.allEffectDecls)
      (ho : o ∈ d.operations) (hname : o.name.node = name)
      (hσ : Scheme.Written reg P (o.written d.name.node) scope [] σ)
  | method {d : TraitDecl} {o : MethodDecl} {param : TypeVar} (hd : d ∈ m.traitDecls)
      (ho : o ∈ d.methods) (hname : o.name.node = name) (hσ : o.Gives reg P d param σ)
  | signed {d : Definition} {written : Spanned TypeExpr} {scope : TypeScope} {givens : List Given}
      (hd : d ∈ ds) (hname : d.name.node = name) (hwritten : d.declared = some written)
      (hσ : Scheme.Written reg P written.node scope givens σ)

/-- Where a definition that is checked against a declared scheme comes from. -/
inductive Module.GivesTask (m : Module) (ds : List Definition) (reg : Registry) (P : Region)
    (task : DeclaredTask) : Prop
  | operation {block : ImplDecl} {d : Definition} {decl : TraitDecl} {t : Trait} {head : Ty}
      {method : Method} (hblock : block ∈ m.implDecls) (hd : d ∈ block.methods)
      (hdecl : decl ∈ m.traitDecls) (hname : decl.name.node = block.traitName.node)
      (ht : decl.Gives reg P t)
      (hhead : reg.dataTypes.implHead? block.typeName.node = some (head, t.paramArity))
      (hmethod : t.method? d.name.node = some method)
      (htask : task = Checker.implTask block t head d method)
  | signed {d : Definition} {written : Spanned TypeExpr} {scope : TypeScope} {givens : List Given}
      {σ : Scheme} (hd : d ∈ ds) (hwritten : d.declared = some written)
      (hσ : Scheme.Written reg P written.node scope givens σ)
        (htask : task = Checker.signedTask d σ)

section Widens

variable {m : Module} {ds ds' : List Definition} {reg reg' : Registry} {P P' : Region}
  (hreg : reg.Widens reg') (hP : ∀ x, P x → P' x) {σ : Scheme}

include hreg hP

theorem Scheme.Written.widens {w : TypeExpr} {scope : TypeScope} {givens : List Given}
    (h : Scheme.Written reg P w scope givens σ) : Scheme.Written reg' P' w scope givens σ :=
  ⟨h.reads.widens hreg, h.distinct, fun hx => hP _ (h.inside hx), h.onVars, h.eq⟩

theorem MethodDecl.Gives.widens {d : TraitDecl} {param : TypeVar} {m : MethodDecl}
    (h : m.Gives reg P d param σ) :
    m.Gives reg' P' d param σ := by
  obtain ⟨scope, bounds, hparam, hwritten⟩ := h
  exact ⟨scope, bounds, hparam, hwritten.widens hreg hP⟩

theorem TraitDecl.Gives.widens {d : TraitDecl} {t : Trait} (h : d.Gives reg P t) :
    d.Gives reg' P' t where
  __ := h
  methods method hmethod := by
    obtain ⟨o, ho, hname, hgives⟩ := h.methods method hmethod
    exact ⟨o, ho, hname, hgives.widens hreg hP⟩

variable (hdata : reg'.dataTypes = reg.dataTypes) (hds : ∀ d ∈ ds, d ∈ ds')

include hdata hds

theorem Module.GivesGlobal.widens {name : String} (h : m.GivesGlobal ds reg P name σ) :
    m.GivesGlobal ds' reg' P' name σ := by
  cases h with
  | constructor hd hcon hname hσ => exact .constructor (hdata ▸ hd) hcon hname hσ
  | operation hd ho hname hσ => exact .operation hd ho hname (hσ.widens hreg hP)
  | method hd ho hname hσ => exact .method hd ho hname (hσ.widens hreg hP)
  | signed hd hname hwritten hσ => exact .signed (hds _ hd) hname hwritten (hσ.widens hreg hP)

theorem Module.GivesTask.widens {task : DeclaredTask} (h : m.GivesTask ds reg P task) :
    m.GivesTask ds' reg' P' task := by
  cases h with
  | operation hblock hd hdecl hname ht hhead hmethod htask =>
    exact .operation hblock hd hdecl hname (ht.widens hreg hP) (hdata ▸ hhead) hmethod htask
  | signed hd hwritten hσ htask => exact .signed (hds _ hd) hwritten (hσ.widens hreg hP) htask

end Widens

namespace Checker

/-! ## Records -/

/-- The checker after the data types of a module are declared. -/
def afterTypes (m : Module) : Checker :=
  declareTypes {} m.allDataDecls

theorem typesRecorded_afterTypes (m : Module) : TypesRecorded m.allDataDecls (afterTypes m) :=
  typesRecorded_declareTypes _

/-- The variables that were drawn since the data types of a module were declared. -/
def region (m : Module) (c : Checker) : Region :=
  (afterTypes m).fresh.HandedOut c.fresh

/-- Everything the checker knows comes from a declaration of the module, where the given definitions
may have been declared. The definitions that wait to be inferred have names of their own. -/
structure Recorded (m : Module) (ds : List Definition) (c : Checker) : Prop where
  reaches : (afterTypes m).fresh.Reaches c.fresh
  dataTypes : c.registry.dataTypes = (afterTypes m).registry.dataTypes
  scopes : c.env.scopes = []
  kept : ∀ {name σ}, (afterTypes m).env.globals.get? name = some σ →
    c.env.globals.get? name = some σ
  globals : ∀ {name σ}, c.env.globals.get? name = some σ →
    m.GivesGlobal ds c.registry (c.region m) name σ
  traits : ∀ {name t}, c.registry.traits.get? name = some t →
    ∃ d ∈ m.traitDecls, d.name.node = name ∧ d.Gives c.registry (c.region m) t
  signatures : ∀ sig ∈ c.signatures, ∃ d ∈ m.traitDecls, ∃ o ∈ d.methods, ∃ param σ,
    o.Gives c.registry (c.region m) d param σ ∧ sig = .ofScheme o.name.node σ o.span ∧
      c.env.hasGlobal o.name.node = true
  declared : ∀ task ∈ c.declared, m.GivesTask ds c.registry (c.region m) task ∧
    (task.isReported = true → c.env.hasGlobal task.label = true)
  inferred : ∀ d ∈ c.inferred, d ∈ ds ∧ d.declared = none ∧ c.env.hasGlobal d.name.node = false
  nodup : (namesOf c.inferred).Nodup
  failed : ∀ n ∈ c.failed, m.Reserves n ∨ n ∈ namesOf ds
  plain : ∀ diag ∈ c.diagnostics, ∀ n, Spares n diag.message
  resolutions : c.resolutions = []

/-- Declaring data types enters nothing but data types and constructors. -/
theorem recorded_afterTypes (m : Module) : (afterTypes m).Recorded m [] := by
  have h := typesRecorded_afterTypes m
  have hnone {α : Type} {f : Checker → List α} {Q : α → Prop} (hf : f (afterTypes m) = []) :
      ∀ a ∈ f (afterTypes m), Q a := hf ▸ nofun
  have htraits : (afterTypes m).registry.traits = {} := congrArg (·.registry.traits) h.rest
  have hinferred : (afterTypes m).inferred = [] := congrArg (·.inferred) h.rest
  refine ⟨.refl, rfl, h.scopes, id, fun hσ => ?_, fun {name t} ht => ?_,
    hnone (congrArg (·.signatures) h.rest), hnone (congrArg (·.declared) h.rest),
      hnone hinferred, ?_,
    fun n hn => ?_, h.plain, congrArg (·.resolutions) h.rest⟩
  · obtain ⟨n, d, con, hd, hcon, hname, hσ⟩ := h.origin hσ
    exact .constructor hd hcon hname hσ
  · rw [htraits] at ht
    cases ht
  · rw [hinferred]
    exact nodup_nil
  · obtain ⟨d, hd, hn⟩ := h.failed n hn
    exact .inl (m.reserves_data hd hn)

namespace Recorded

variable {m : Module} {ds ds' : List Definition} {c c' : Checker} {σ : Scheme} {d : TraitDecl}

section

variable (h : c.Recorded m ds)
include h

theorem pooled : c.fresh.Pooled :=
  h.reaches.pooled (typesRecorded_afterTypes m).pooled

/-- The registry knows the data types from the start. -/
theorem widens : (afterTypes m).registry.Widens c.registry := by
  refine ⟨fun hk => h.dataTypes ▸ hk, fun {label} hlabel => ?_⟩
  have heffects : (afterTypes m).registry.effects = [] :=
    congrArg (·.registry.effects) (typesRecorded_afterTypes m).rest
  rw [Registry.hasEffect, heffects] at hlabel
  cases hlabel

theorem linked : c.registry.dataTypes.Linked :=
  h.dataTypes ▸ (typesRecorded_afterTypes m).linked

theorem data {n : String} {d : DataType} (hd : c.registry.dataTypes.get? n = some d) :
    ∃ decl ∈ m.allDataDecls, decl.Gives c.registry d := by
  rw [h.dataTypes] at hd
  obtain ⟨decl, hdecl, hgives⟩ := (typesRecorded_afterTypes m).gives hd
  exact ⟨decl, hdecl, hgives.widens h.widens⟩

theorem bound {n : String} {d : DataType} {con : Constructor}
    (hd : c.registry.dataTypes.get? n = some d) (hcon : con ∈ d.constructors) :
    c.env.globals.get? con.name = some (d.constructorScheme con) := by
  rw [h.dataTypes] at hd
  exact h.kept ((typesRecorded_afterTypes m).bound hd hcon)

/-! ### Updates -/

/-- Variables may be drawn, names may fail, things may be reported, and the registry may get further
effects and implementations, and traits that are declared. -/
theorem update {reg : Registry} {f : Fresh} {diagnostics : List Diagnostic}
    {failed : List String} (hreg : c.registry.Widens reg)
    (hdata : reg.dataTypes = c.registry.dataTypes)
    (htraits : ∀ {name t}, reg.traits.get? name = some t → c.registry.traits.get? name = some t ∨
      ∃ d ∈ m.traitDecls, d.name.node = name ∧ d.Gives c.registry (c.region m) t)
    (hreaches : c.fresh.Reaches f) (hplain : ∀ diag ∈ diagnostics, ∀ n, Spares n diag.message)
    (hfailed : ∀ n ∈ failed, m.Reserves n ∨ n ∈ namesOf ds) :
    Recorded m ds { c with registry := reg, fresh := f, diagnostics, failed } := by
  have hP : ∀ x, c.region m x → (afterTypes m).fresh.HandedOut f x :=
    fun x hx => hx.later hreaches.later
  refine { h with
    reaches := h.reaches.trans hreaches, dataTypes := hdata.trans h.dataTypes, plain := hplain,
    failed := hfailed, globals := fun hσ => (h.globals hσ).widens hreg hP hdata fun _ hd => hd,
    traits := fun ht => ?_, signatures := fun sig hsig => ?_, declared := fun task htask => ?_ }
  · obtain ⟨d, hd, hname, hgives⟩ := (htraits ht).elim h.traits id
    exact ⟨d, hd, hname, hgives.widens hreg hP⟩
  · obtain ⟨d, hd, o, ho, param, σ, hgives, hrest⟩ := h.signatures sig hsig
    exact ⟨d, hd, o, ho, param, σ, hgives.widens hreg hP, hrest⟩
  · obtain ⟨hgives, hglobal⟩ := h.declared task htask
    exact ⟨hgives.widens hreg hP hdata fun _ hd => hd, hglobal⟩

theorem idles {names : List String} (hidles : Idles names c c')
    (hnames : ∀ n ∈ names, m.Reserves n ∨ n ∈ namesOf ds) : c'.Recorded m ds := by
  have heq :
      c' = { c with fresh := c'.fresh, diagnostics := c'.diagnostics, failed := c'.failed } :=
    congrArg (fun d : Checker =>
      { d with fresh := c'.fresh, diagnostics := c'.diagnostics, failed := c'.failed })
        hidles.entered
  rw [heq]
  exact h.update ⟨id, id⟩ rfl .inl hidles.fresh
    (fun diag hdiag => (hidles.plain diag hdiag).elim (h.plain diag) id)
    fun n hn => (hidles.failed n hn).elim (h.failed n) (hnames n)

theorem draws {f : Fresh} (hf : c.fresh.Reaches f) :
    Recorded m ds { c with fresh := f } :=
  h.update ⟨id, id⟩ rfl .inl hf h.plain h.failed

theorem registry (reg : Registry) (hreg : c.registry.Widens reg)
    (hdata : reg.dataTypes = c.registry.dataTypes)
    (htraits : ∀ {name t}, reg.traits.get? name = some t → c.registry.traits.get? name = some t ∨
      ∃ d ∈ m.traitDecls, d.name.node = name ∧ d.Gives c.registry (c.region m) t) :
    Recorded m ds { c with registry := reg } :=
  h.update hreg hdata htraits .refl h.plain h.failed

/-- A new name that no waiting definition has may get a declared type. -/
theorem bindGlobal {name : String} (hnew : c.env.hasGlobal name = false)
    (hσ : m.GivesGlobal ds c.registry (c.region m) name σ) (hfree : name ∉ namesOf c.inferred) :
    (c.bindGlobal name σ).Recorded m ds := by
  have hget (n : String) : (c.bindGlobal name σ).env.globals.get? n =
      if n = name then some σ else c.env.globals.get? n := Dict.get?_insert _ _ _ _
  have hglobal {n : String} (hn : c.env.hasGlobal n = true) :
      (c.bindGlobal name σ).env.hasGlobal n = true := hasGlobal_bindGlobal.mpr (.inl hn)
  refine { h with
    scopes := h.scopes, kept := fun {n τ} hτ => ?_, globals := fun {n τ} hτ => ?_,
    signatures := fun sig hsig => ?_, inferred := fun d hd => ?_,
    declared := fun task htask =>
      ⟨(h.declared task htask).1, fun hr => hglobal ((h.declared task htask).2 hr)⟩ }
  · have hbound := h.kept hτ
    rw [hget, if_neg, hbound]
    rintro heq
    rw [Env.hasGlobal, Dict.contains, ← heq, hbound] at hnew
    cases hnew
  · rw [hget] at hτ
    split at hτ
    · rename_i heq
      rw [heq, ← Option.some.inj hτ]
      exact hσ
    · exact h.globals hτ
  · obtain ⟨d, hd, o, ho, param, τ, hgives, heq, hhas⟩ := h.signatures sig hsig
    exact ⟨d, hd, o, ho, param, τ, hgives, heq, hglobal hhas⟩
  · obtain ⟨hmem, hunsigned, hunknown⟩ := h.inferred d hd
    refine ⟨hmem, hunsigned, ?_⟩
    rw [← Bool.not_eq_true] at hunknown ⊢
    intro hhas
    rcases hasGlobal_bindGlobal.mp hhas with hhas | heq
    · exact hunknown hhas
    · exact hfree (heq ▸ mem_map_of_mem hd)

theorem addDeclared {task : DeclaredTask} (htask : m.GivesTask ds c.registry (c.region m) task)
    (hglobal : task.isReported = true → c.env.hasGlobal task.label = true) :
    Recorded m ds { c with declared := c.declared ++ [task] } where
  __ := h
  declared task' htask' := by
    rcases mem_append.mp htask' with htask' | htask'
    · exact h.declared task' htask'
    · rw [mem_singleton.mp htask']
      exact ⟨htask, hglobal⟩

theorem addSignature {o : MethodDecl} {param : TypeVar} (hd : d ∈ m.traitDecls)
    (ho : o ∈ d.methods) (hσ : o.Gives c.registry (c.region m) d param σ)
    (hglobal : c.env.hasGlobal o.name.node = true) :
    (c.addSignature o.name.node σ o.span).Recorded m ds where
  __ := h
  signatures sig hsig := by
    rcases mem_append.mp hsig with hsig | hsig
    · exact h.signatures sig hsig
    · rw [mem_singleton.mp hsig]
      exact ⟨d, hd, o, ho, param, σ, hσ, rfl, hglobal⟩

theorem addInferred {d : Definition} (hd : d ∈ ds)
    (hunsigned : d.declared = none) (hnew : c.env.hasGlobal d.name.node = false)
    (hfirst : d.name.node ∉ namesOf c.inferred) :
    Recorded m ds { c with inferred := c.inferred ++ [d] } where
  __ := h
  inferred d' hd' := by
    rcases mem_append.mp hd' with hd' | hd'
    · exact h.inferred d' hd'
    · rw [mem_singleton.mp hd']
      exact ⟨hd, hunsigned, hnew⟩
  nodup := by
    change (namesOf (c.inferred ++ [d])).Nodup
    rw [namesOf, map_append, map_singleton]
    exact List.Nodup.append h.nodup (nodup_singleton _) (disjoint_singleton.mpr hfirst)

/-- More definitions may be declared. -/
theorem mono (hds : ∀ d ∈ ds, d ∈ ds') : c.Recorded m ds' where
  __ := h
  globals hσ := (h.globals hσ).widens ⟨id, id⟩ (fun _ hx => hx) rfl hds
  declared task htask :=
    ⟨(h.declared task htask).1.widens ⟨id, id⟩ (fun _ hx => hx) rfl hds, (h.declared task htask).2⟩
  inferred d hd := ⟨hds d (h.inferred d hd).1, (h.inferred d hd).2⟩
  failed n hn := (h.failed n hn).imp_right fun hn => map_subset _ hds hn

/-- A written type that is resolved is read in a scope of variables drawn since the data types. -/
theorem written {start : TypeScope} {w : TypeExpr} {givens : List Given} {r : Resolver}
    (hr : c.Resolves start w givens σ r) (hd : start.Distinct)
    (hstart : ∀ {x}, start.Has x → c.region m x) :
    Scheme.Written c.registry (region m { c with fresh := r.fresh }) w r.scope givens σ := by
  obtain ⟨span, hrun⟩ := hr.run
  have hleads : Resolve.Leads ⟨c.fresh, start⟩ r := (Resolve.Stepwise.type w).leads hrun
  have hdistinct := h.pooled.distinct
  refine ⟨Resolve.reads_type hrun, hleads.distinct hdistinct (fun hx => (hstart hx).2) hd,
    fun hx => ?_,
    hr.bounds, hr.eq⟩
  rcases hleads.has hdistinct hx with hx | hx
  · exact (hstart hx).later hleads.later
  · exact hx.earlier h.reaches.later

theorem written_empty {w : TypeExpr} {givens : List Given} {r : Resolver}
    (hr : c.Resolves .empty w givens σ r) :
    Scheme.Written c.registry (region m { c with fresh := r.fresh }) w r.scope givens σ :=
  h.written hr ⟨nodup_nil, nodup_nil⟩ fun hx => (TypeScope.not_has_empty hx).elim

end

section

variable (h : c.Recorded m [])
include h

/-- Before definitions are declared no name waits. -/
theorem not_waiting (name : String) : name ∉ namesOf c.inferred := by
  rw [eq_nil_iff_forall_not_mem.mpr fun d hd => not_mem_nil (h.inferred d hd).1]
  exact not_mem_nil

/-! ### Effects -/

theorem declareOperation {d : EffectDecl} {o : OperationDecl}
    (hd : d ∈ m.allEffectDecls) (ho : o ∈ d.operations)
    (heffect : c.registry.hasEffect d.name.node = true) :
    (declareOperation d.name.node c o).Recorded m [] ∧
      (Checker.declareOperation d.name.node c o).registry = c.registry := by
  rcases c.declareOperation_cases heffect o with hrejects | ⟨σ, r, hr, hnew, heq⟩
  · refine ⟨h.idles hrejects.toIdles (forall_mem_singleton.mpr (Or.inl ?_)), hrejects.registry⟩
    exact m.reserves_effect hd (mem_cons_of_mem _ (mem_map_of_mem ho))
  · rw [heq]
    exact ⟨(h.draws hr.reaches).bindGlobal hnew (.operation hd ho rfl (h.written_empty hr))
      (h.not_waiting _), rfl⟩

theorem declareEffect {d : EffectDecl} (hd : d ∈ m.allEffectDecls) :
    (c.declareEffect d).Recorded m [] ∧ (c.declareEffect d).registry.traits =
      c.registry.traits := by
  rw [Checker.declareEffect]
  split
  · have hrejects : Rejects [] c (c.declarationError
        s!"effect `{d.name.node}` is defined more than once" d.name.span) :=
      rejects_declarationError spares_of_start
    exact ⟨h.idles hrejects.toIdles nofun, rfl⟩
  · have hwidens : c.registry.Widens (c.registry.insertEffect d.name.node) := by
      refine ⟨id, fun {label} hlabel => ?_⟩
      simp only [Registry.insertEffect, Registry.hasEffect, contains_eq_mem, decide_eq_true_eq,
        Sorted.mem_insert] at hlabel ⊢
      exact .inr hlabel
    have heffect : (c.registry.insertEffect d.name.node).hasEffect d.name.node = true := by
      simp [Registry.insertEffect, Registry.hasEffect, Sorted.mem_insert]
    obtain ⟨hrecorded, hregistry⟩ := foldl_induction (P := fun c' => Recorded m [] c' ∧
      c'.registry = c.registry.insertEffect d.name.node) ⟨h.registry _ hwidens rfl .inl, rfl⟩
      fun c' hc' o ho => by
        obtain ⟨hrecorded, hregistry⟩ := hc'.1.declareOperation hd ho (hc'.2.symm ▸ heffect)
        exact ⟨hrecorded, hregistry.trans hc'.2⟩
    exact ⟨hrecorded, congrArg (·.traits) hregistry⟩

/-! ### Traits -/

theorem declareMethods (traits : List String) {param : TypeVar}
    (hd : d ∈ m.traitDecls) (hparam : c.region m (.type param)) :
    let state := d.methods.foldl (declareMethod traits d param) ([], c)
    state.2.Recorded m [] ∧ ∀ method ∈ state.1, ∃ o ∈ d.methods, o.name.node = method.name ∧
      o.Gives state.2.registry (state.2.region m) d param method.scheme := by
  refine (foldl_induction (P := fun state : List Method × Checker => state.2.region m
    (.type param) ∧
    state.2.Recorded m [] ∧ ∀ method ∈ state.1, ∃ o ∈ d.methods, o.name.node = method.name ∧
      o.Gives state.2.registry (state.2.region m) d param method.scheme)
    ⟨hparam, h, forall_mem_nil _⟩ fun state hstate o ho => ?_).2
  obtain ⟨methods, c₁⟩ := state
  obtain ⟨hparam, hrecorded, hmethods⟩ := hstate
  dsimp only at hparam hrecorded hmethods
  -- operations that were read stay what they are while variables are drawn
  have hkept {f : Fresh} (hf : c₁.fresh.Reaches f) : ∀ method ∈ methods, ∃ o ∈ d.methods,
      o.name.node = method.name ∧
        o.Gives c₁.registry ((afterTypes m).fresh.HandedOut f) d param method.scheme :=
    fun method hmethod => by
      obtain ⟨o, ho, hname, hgives⟩ := hmethods method hmethod
      exact ⟨o, ho, hname, hgives.widens ⟨id, id⟩ fun x hx => hx.later hf.later⟩
  rcases declareMethod_cases traits d param methods c₁ o with
    ⟨c', heq, hrejects⟩ | ⟨givens, σ, r, hr, hnew, -, heq⟩
  · rw [heq]
    refine ⟨hparam.later hrejects.fresh.later, hrecorded.idles hrejects.toIdles
      (forall_mem_singleton.mpr (Or.inl ?_)), hrejects.registry ▸ hkept hrejects.fresh⟩
    exact m.reserves_trait hd (mem_cons_of_mem _ (mem_map_of_mem ho))
  · rw [heq]
    obtain ⟨span, hrun⟩ := hr.run
    have hleads : Resolve.Leads _ r := (Resolve.Stepwise.type o.type.node).leads hrun
    have hwritten := hrecorded.written hr ⟨nodup_singleton _, nodup_nil⟩ fun {x} hx => by
      rcases TypeScope.has_insertType.mp hx with hx | rfl
      · exact (TypeScope.not_has_empty hx).elim
      · exact hparam
    have hσ : o.Gives c₁.registry (region m { c₁ with fresh := r.fresh }) d param σ :=
      ⟨r.scope, givens, hleads.types (Dict.lookup_snoc_self rfl param), hwritten⟩
    refine ⟨hparam.later hr.reaches.later, ((hrecorded.draws hr.reaches).bindGlobal hnew
      (.method hd ho rfl hσ) (hrecorded.not_waiting _)).addSignature hd ho hσ
      (hasGlobal_bindGlobal.mpr (Or.inr rfl)), fun method hmethod => ?_⟩
    rcases mem_append.mp hmethod with hmethod | hmethod
    · exact hkept hr.reaches method hmethod
    · rw [mem_singleton.mp hmethod]
      exact ⟨o, ho, rfl, hσ⟩

theorem declareTrait (traits : List String) (hd : d ∈ m.traitDecls) :
    (declareTrait traits c d).Recorded m [] := by
  rcases declareTrait_cases traits c d with hrejects | ⟨n, -, htakes, heq⟩
  · exact h.idles hrejects.toIdles nofun
  · rw [heq, declareTraitAt]
    have hparam := h.pooled.distinct.handedOut_typeVar.earlier h.reaches.later
    obtain ⟨hrecorded, hmethods⟩ :=
      (h.draws c.fresh.reaches_typeVar).declareMethods traits hd hparam
    refine hrecorded.registry _ ⟨id, id⟩ rfl fun {name t} ht => ?_
    replace ht := (Dict.get?_insert _ _ _ _).symm.trans ht
    split at ht
    · rename_i hname
      rw [← Option.some.inj ht]
      exact .inr ⟨d, hd, hname.symm, rfl, rfl, htakes, hmethods⟩
    · exact .inl ht

/-! ### Implementations -/

theorem declareImplMethods {block : ImplDecl} {t : Trait} {head : Ty}
    (hblock : block ∈ m.implDecls) (ht : c.registry.traits.get? block.traitName.node = some t)
    (hhead : c.registry.dataTypes.implHead? block.typeName.node = some (head, t.paramArity)) :
    (block.methods.foldl (declareImplMethod block t head) ([], c)).2.Recorded m [] := by
  refine (foldl_induction (P := fun state : List String × Checker => state.2.Recorded m [] ∧
    state.2.registry = c.registry) ⟨h, rfl⟩ fun state hstate d hd => ?_).1
  obtain ⟨provided, c₁⟩ := state
  obtain ⟨hrecorded, hregistry⟩ := hstate
  dsimp only at hrecorded hregistry
  rcases declareImplMethod_cases block t head provided c₁ d with
    ⟨provided', c', heq, hrejects⟩ | ⟨method, -, hmethod, heq⟩
  · rw [heq]
    exact ⟨hrecorded.idles hrejects.toIdles nofun, hrejects.registry.trans hregistry⟩
  · rw [heq]
    rw [← hregistry] at ht hhead
    obtain ⟨decl, hdecl, hname, hgives⟩ := hrecorded.traits ht
    exact ⟨hrecorded.addDeclared (.operation hblock hd hdecl hname hgives hhead hmethod rfl)
      (fun hreported => by cases hreported), hregistry⟩

theorem declareImpl {block : ImplDecl} (hblock : block ∈ m.implDecls) :
    (c.declareImpl block).Recorded m [] := by
  rcases declareImpl_cases c block with hrejects | ⟨t, head, ht, hhead, -, heq⟩
  · exact h.idles hrejects.toIdles nofun
  · rw [heq, declareImplOf]
    have hmethods := h.declareImplMethods hblock ht hhead
    rcases hrun : block.methods.foldl (declareImplMethod block t head) ([], c) with ⟨provided, c₁⟩
    rw [hrun] at hmethods
    have hrequired := hmethods.idles (requireMethods_idles block provided t.methods c₁) nofun
    exact hrequired.registry _ ⟨id, id⟩ rfl .inl

end

/-! ### Definitions -/

theorem declares (h : c.Recorded m ds) {d : Definition} (hd : d ∈ ds)
    (hdeclares : Declares d c c') :
    c'.Recorded m ds := by
  cases hdeclares with
  | duplicate _ hidles => exact h.idles hidles nofun
  | waits hunsigned hnew hfirst => exact h.addInferred hd hunsigned hnew hfirst
  | failed _ _ hidles =>
    exact h.idles hidles (forall_mem_singleton.mpr (.inr (mem_map_of_mem hd)))
  | signed hwritten hr hnew hfirst =>
    have hσ := h.written_empty hr
    exact ((h.draws hr.reaches).bindGlobal hnew (.signed hd rfl hwritten hσ) hfirst).addDeclared
      (.signed hd hwritten hσ rfl) fun _ => hasGlobal_bindGlobal.mpr (.inr rfl)

end Recorded

/-! ## Modules -/

/-- The checker after the effects of a module are declared. -/
def afterEffects (m : Module) : Checker :=
  m.allEffectDecls.foldl declareEffect (afterTypes m)

/-- The checker after the effects, traits and implementations of a module are declared. -/
def afterImpls (m : Module) : Checker :=
  m.implDecls.foldl declareImpl
    (m.traitDecls.foldl (declareTrait (m.traitDecls.map (·.name.node)))
      (m.allEffectDecls.foldl declareEffect (afterTypes m)))

theorem declareModule_eq_foldl (m : Module) :
    declareModule {} m = m.definitions.foldl declareDefinition (afterImpls m) := rfl

/-- When traits are to be declared, none is known. -/
theorem recorded_afterEffects (m : Module) :
    (afterEffects m).Recorded m [] ∧ (afterEffects m).registry.traits = {} := by
  have hstart : (afterTypes m).registry.traits = {} :=
    congrArg (·.registry.traits) (typesRecorded_afterTypes m).rest
  exact foldl_induction (P := fun c => Recorded m [] c ∧ c.registry.traits = {})
    ⟨recorded_afterTypes m, hstart⟩ fun c hc d hd =>
      ⟨(hc.1.declareEffect hd).1, (hc.1.declareEffect hd).2.trans hc.2⟩

theorem recorded_afterImpls (m : Module) : (afterImpls m).Recorded m [] := by
  refine foldl_induction ?_ fun _ hc _ hblock => hc.declareImpl hblock
  exact foldl_induction (recorded_afterEffects m).1 fun _ hc _ hd => hc.declareTrait _ hd

/-- Everything that declaring a module enters is what some declaration says. -/
theorem recorded_declareModule (m : Module) : (declareModule {} m).Recorded m m.definitions := by
  rw [declareModule_eq_foldl]
  exact foldl_induction ((recorded_afterImpls m).mono nofun) fun c hc d hd =>
    hc.declares hd (c.declares_declareDefinition d)

end Checker

end RowTyping
