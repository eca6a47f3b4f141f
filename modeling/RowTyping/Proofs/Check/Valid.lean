import RowTyping.Proofs.Check.Inferences
import RowTyping.Proofs.Check.Recorded
import RowTyping.Proofs.Infer.Soundness

/-!
# Inferences start in valid states

A checker is valid for a supply if nothing it knows mentions a variable that the supply will draw,
if all its global schemes are closed and if the fields of its data types mention only their
parameters (`Checker.Valid`). A checker that has declared a module is valid for its own supply
(`Checker.Ready`), since every scheme is read in a scope of drawn variables, and each wave keeps it
valid for a new supply of its pool. So every inference of a module starts in a state in which
inference may start.
-/

namespace RowTyping

open List

/-! ## Valid checkers -/

/-- The parameters have been drawn, and the fields of constructors mention only parameters. -/
structure DataType.Valid (d : DataType) (f : Fresh) : Prop where
  params : ∀ v ∈ d.paramVars, ¬ f.Upcoming (.type v)
  sorted : ∀ con ∈ d.constructors, ∀ t ∈ con.fields, t.RowsSorted
  fields : ∀ con ∈ d.constructors, ∀ t ∈ con.fields, t.Over fun x => ∃ v ∈ d.paramVars, x = .type v

/-- The scheme has no free variables, and its variables have been drawn. -/
structure Scheme.Valid (σ : Scheme) (f : Fresh) : Prop where
  usable : σ.Usable f
  closed : ∀ x, ¬ σ.Free x

/-- The variable is no parameter of a data type. -/
def DataTypes.NoParam (types : DataTypes) : Region :=
  fun x => ∀ n d, types.get? n = some d → ¬ Infer.IsParam d x

/-- The scheme is valid and mentions no parameters of data types. -/
structure Scheme.Declared (types : DataTypes) (σ : Scheme) (f : Fresh) :
    Prop extends σ.Valid f where
  apart : σ.type.Over types.NoParam

/-- Nothing that the checker knows mentions a variable that the supply will draw, and no two data
types share a constructor. -/
structure Checker.Valid (c : Checker) (f : Fresh) : Prop where
  linked : c.registry.dataTypes.Linked
  scopes : c.env.scopes = []
  globals : ∀ {name σ}, c.env.globals.get? name = some σ → σ.Valid f
  dataTypes : ∀ {name d}, c.registry.dataTypes.get? name = some d → d.Valid f
  declared : ∀ task ∈ c.declared, task.scheme.Declared c.registry.dataTypes f

section Later

variable {f f' : Fresh}

theorem DataType.Valid.later {d : DataType} (h : d.Valid f) (hlater : f.Later f') : d.Valid f' :=
  ⟨fun v hv hup => h.params v hv (hlater.upcoming hup), h.sorted, h.fields⟩

theorem Scheme.Valid.later {σ : Scheme} (h : σ.Valid f) (hlater : f.Later f') : σ.Valid f' :=
  ⟨h.usable.later hlater, h.closed⟩

theorem Scheme.Declared.later {types : DataTypes} {σ : Scheme} (h : σ.Declared types f)
    (hlater : f.Later f') : σ.Declared types f' :=
  ⟨h.toValid.later hlater, h.apart⟩

end Later

namespace Checker

variable {c c' : Checker} {f f' : Fresh}

theorem Valid.later (h : c.Valid f) (hlater : f.Later f') : c.Valid f' where
  linked := h.linked
  scopes := h.scopes
  globals hσ := (h.globals hσ).later hlater
  dataTypes hd := (h.dataTypes hd).later hlater
  declared task htask := (h.declared task htask).later hlater

/-- What the checker knows apart from its supply. -/
def knowledge (c : Checker) : Env × Registry × List DeclaredTask :=
  (c.env, c.registry, c.declared)

theorem Valid.congr (h : c.Valid f) (hc : c'.knowledge = c.knowledge) : c'.Valid f := by
  obtain ⟨henv, hrest⟩ := Prod.mk.inj hc
  obtain ⟨hreg, hdeclared⟩ := Prod.mk.inj hrest
  exact ⟨hreg ▸ h.linked, henv ▸ h.scopes, henv ▸ h.globals, hreg ▸ h.dataTypes,
    hreg ▸ hdeclared ▸ h.declared⟩

theorem Valid.bindGlobal (h : c.Valid f) (name : String) {σ : Scheme} (hσ : σ.Valid f) :
    (c.bindGlobal name σ).Valid f where
  linked := h.linked
  scopes := h.scopes
  globals {name' τ} hτ := by
    change (c.env.globals.insert name σ).get? name' = some τ at hτ
    rw [Dict.get?_insert] at hτ
    split at hτ
    · exact Option.some.inj hτ ▸ hσ
    · exact h.globals hτ
  dataTypes := h.dataTypes
  declared := h.declared

/-- No parameter of a data type will be drawn. -/
theorem Valid.noParam (h : c.Valid f) {x : Var} (hx : f.Upcoming x) :
    c.registry.dataTypes.NoParam x := by
  rintro n d hd ⟨v, hv, rfl⟩
  exact (h.dataTypes hd).params v hv hx

/-- Inference may start with what a valid checker knows. -/
theorem Valid.wellFormed (h : c.Valid f) (hf : f.Distinct) :
    (InferState.start f c.env).WellFormed c.registry := by
  have hlocals : c.env.locals = [] := by rw [Env.locals, h.scopes, flatMap_nil]
  refine InferState.wellFormed_start hf ⟨?_, fun hσ => (h.globals hσ).usable,
    fun hσ => (h.globals hσ).closed⟩ hlocals ?_
  · rw [hlocals]
    exact nofun
  · have hmem {name : String} {d : DataType} {con : Constructor}
        (hcon : c.registry.dataTypes.constructor? name = some (d, con)) :
        d.Valid f ∧ con ∈ d.constructors := by
      obtain ⟨n, hd, hcon, -⟩ := DataTypes.constructor?_eq_some hcon
      exact ⟨h.dataTypes hd, hcon⟩
    exact ⟨fun hcon => (hmem hcon).1.params, fun hcon => (hmem hcon).1.sorted _ (hmem hcon).2,
      fun hcon => (hmem hcon).1.fields _ (hmem hcon).2⟩

end Checker

/-! ## Declared schemes -/

section Schemes

variable {reg : Registry} {P : Region} {types : DataTypes} {f : Fresh}

/-- The scheme of a constructor is valid. -/
theorem DataType.Valid.constructorScheme {d : DataType} (hd : d.Valid f) {con : Constructor}
    (hcon : con ∈ d.constructors) : (d.constructorScheme con).Valid f := by
  have hdrawn {t : Ty} (ht : t.Over fun x => ∃ v ∈ d.paramVars, x = .type v) :
      t.Over fun x => ¬ f.Upcoming x := ht.mono <| by
    rintro _ ⟨v, hv, rfl⟩
    exact hd.params v hv
  have hresult : d.resultType.Usable f ∧ d.resultType.Over fun x => ∃ v ∈ d.paramVars, x =
      .type v := by
    have hover := Infer.resultType_over d
    refine ⟨⟨fun row hrow => ?_, hdrawn hover⟩, hover⟩
    obtain ⟨t, ht, hrow⟩ := Ty.mem_rows_named.mp hrow
    obtain ⟨v, -, rfl⟩ := mem_map.mp ht
    exact (not_mem_nil hrow).elim
  have hfields : ∀ t ∈ con.fields, t.Usable f := fun t ht =>
    ⟨hd.sorted con hcon t ht, hdrawn (hd.fields con hcon t ht)⟩
  refine ⟨⟨?_, fun {x} hx => ?_⟩, fun x hx => hx.2 ?_⟩
  · rw [DataType.constructorScheme]
    dsimp only
    split
    · exact hresult.1
    · exact Ty.usable_fn.mpr ⟨hfields, hresult.1, Row.usable_pure⟩
  · rcases x with v | e
    · exact hd.params v (Scheme.mem_quantified_type.mp hx)
    · exact (not_mem_nil (Scheme.mem_quantified_effect.mp hx)).elim
  · have hover : (d.constructorScheme con).type.Over fun x => ∃ v ∈ d.paramVars, x = .type v := by
      rw [DataType.constructorScheme]
      dsimp only
      split
      · exact hresult.2
      · exact Ty.over_fn.mpr ⟨hd.fields con hcon, hresult.2, Row.over_pure⟩
    obtain ⟨v, hv, rfl⟩ := hover x hx.1
    exact Scheme.mem_quantified_type.mpr hv

/-- A declared data type whose parameters have been drawn is valid. -/
theorem DataDecl.Gives.valid {decl : DataDecl} {d : DataType} (h : decl.Gives reg d)
    (hdrawn : ∀ v ∈ d.paramVars, ¬ f.Upcoming (.type v)) : d.Valid f := by
  have hread : ∀ con ∈ d.constructors, ∀ t ∈ con.fields,
      Resolve.Resolved (.closed (d.params.map Prod.swap)) t := fun con hcon => by
    obtain ⟨v, -, hv⟩ := h.constructors con hcon
    exact hv.forall_fields TypeScope.Reads.toResolved
  refine ⟨hdrawn, fun con hcon t ht => (hread con hcon t ht).sorted, fun con hcon t ht x hx => ?_⟩
  have hx := (hread con hcon t ht).inScope x hx
  rcases x with v | e
  · exact ⟨v, by simpa [TypeScope.Has, TypeScope.closed, DataType.paramVars] using hx, rfl⟩
  · exact (not_mem_nil hx).elim

variable (hdrawn : ∀ x, P x → ¬ f.Upcoming x) (hapart : ∀ x, P x → types.NoParam x)

include hdrawn hapart

/-- A written scheme over a region of drawn variables that are no parameters is declared. -/
theorem Scheme.Written.declared {w : TypeExpr} {scope : TypeScope} {givens : List Given}
    {σ : Scheme} (h : Scheme.Written reg P w scope givens σ) : σ.Declared types f := by
  have hquantified {x : Var} : x ∈ σ.quantified ↔ scope.Has x := by
    rw [h.eq]
    exact TypeScope.mem_quantified_scheme
  have hover := h.reads.inScope
  exact ⟨⟨⟨⟨h.reads.sorted, hover.mono fun x hx => hdrawn x (h.inside hx)⟩,
    fun hx => hdrawn _ (h.inside (hquantified.mp hx))⟩,
      fun x hx => hx.2 (hquantified.mpr (hover x hx.1))⟩,
    hover.mono fun x hx => hapart x (h.inside hx)⟩

/-- The scheme of an operation at a type constructor is declared. -/
theorem Trait.declared_specialize {d : TraitDecl} {t : Trait} {o : MethodDecl} {σ : Scheme}
    (h : o.Gives reg P d t.param σ) {head : Ty} (hhead : head.IsConstructor) :
    (t.specialize head σ).Declared types f := by
  obtain ⟨scope, bounds, -, hwritten⟩ := h
  have hσ := hwritten.declared hdrawn hapart
  have hquantified {x : Var} : x ∈ (t.specialize head σ).quantified ↔
      x ∈ σ.quantified ∧ x ≠ .type t.param := by
    rcases x with v | e
    · simp [Scheme.mem_quantified_type, Trait.specialize]
    · simp [Scheme.mem_quantified_effect, Trait.specialize]
  -- a variable that is left is not the parameter and stands for itself
  have hleft {x : Var} (hx : x ∈ (t.specialize head σ).type.occurrences) :
      x ∈ σ.type.occurrences ∧ x ≠ .type t.param := mem_occurrences_fixed hhead hx
  have hsorted : (t.specialize head σ).type.RowsSorted := by
    change ((Subst.empty.bindType t.param head).apply σ.type).RowsSorted
    rw [Subst.apply_eq_under]
    refine hσ.usable.type.sorted.under fun v _ => ?_
    by_cases hv : v = t.param
    · rw [hv, types_fixed hhead]
      exact hhead.rowsSorted
    · rw [types_fixed_of_ne hv]
      exact fun row hrow => (not_mem_nil hrow).elim
  refine ⟨⟨⟨⟨hsorted, fun x hx => hσ.usable.type.drawn x (hleft hx).1⟩,
    fun hx => hσ.usable.quantified (hquantified.mp hx).1⟩, fun x hx => hx.2 ?_⟩,
    fun x hx => hσ.apart x (hleft hx).1⟩
  obtain ⟨hold, hparam⟩ := hleft hx.1
  exact hquantified.mpr ⟨not_not.mp fun hq => hσ.closed x ⟨hold, hq⟩, hparam⟩

end Schemes

/-! ## Modules -/

namespace Checker

/-- The checker is valid for its own supply. -/
structure Ready (c : Checker) : Prop where
  pooled : c.fresh.Pooled
  valid : c.Valid c.fresh

/-- Declarations mention no variable that is drawn after them. -/
theorem Recorded.ready {c : Checker} {m : Module} {ds : List Definition} (h : c.Recorded m ds) :
    c.Ready := by
  have htypes := typesRecorded_afterTypes m
  have hparams {n : String} {d : DataType} (hd : c.registry.dataTypes.get? n = some d) :
      ∀ v ∈ d.paramVars, ¬ (afterTypes m).fresh.Upcoming (.type v) :=
        htypes.drawn (h.dataTypes ▸ hd)
  have hdata {n : String} {d : DataType} (hd : c.registry.dataTypes.get? n = some d) :
      d.Valid c.fresh := by
    obtain ⟨decl, -, hgives⟩ := h.data hd
    exact hgives.valid fun v hv hup => hparams hd v hv (h.reaches.later.upcoming hup)
  have hdrawn : ∀ x, c.region m x → ¬ c.fresh.Upcoming x := fun x hx => hx.2
  have hapart : ∀ x, c.region m x → c.registry.dataTypes.NoParam x := by
    rintro x hx n d hd ⟨v, hv, rfl⟩
    exact hparams hd v hv hx.1
  refine ⟨h.pooled, h.linked, h.scopes, fun hσ => ?_, hdata, fun task htask => ?_⟩
  · cases h.globals hσ with
    | constructor hd hcon _ hσ =>
      rw [hσ]
      exact (hdata hd).constructorScheme hcon
    | operation _ _ _ hσ => exact (hσ.declared hdrawn hapart).toValid
    | method _ _ _ hσ =>
      obtain ⟨_, _, -, hσ⟩ := hσ
      exact (hσ.declared hdrawn hapart).toValid
    | signed _ _ _ hσ => exact (hσ.declared hdrawn hapart).toValid
  · cases (h.declared task htask).1 with
    | operation _ _ _ _ ht hhead hmethod htask =>
      obtain ⟨o, -, -, hgives⟩ := ht.methods _ (mem_of_find?_eq_some hmethod)
      rw [htask]
      exact Trait.declared_specialize hdrawn hapart hgives (DataTypes.takes_of_implHead? hhead).1
    | signed _ _ hσ htask =>
      rw [htask]
      exact hσ.declared hdrawn hapart

theorem ready_declareModule (m : Module) : (declareModule {} m).Ready :=
  (recorded_declareModule m).ready

end Checker

end RowTyping
