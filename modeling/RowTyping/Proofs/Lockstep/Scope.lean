import RowTyping.Proofs.Infer.Soundness
import RowTyping.Proofs.Lockstep.Generalize

/-!
# Scopes in lockstep

Inference of a definition on its own and as a member of a component differ in one scope: the
component gives the definition's own name a type, which a definition that does not refer to itself
never looks up. `Matching.Envs` relates two environments up to such hidden names, `Matching.Scoped`
the states while names are being bound. Patterns and local definitions bind the same names to
matching schemes.
-/

namespace RowTyping

open List

/-! ## Environments -/

namespace Matching

variable {ρ : Matching} {scope : Dict String Scheme} {σ σ' : Scheme} {s : Subst}

/-- The same names with matching schemes. -/
abbrev Scopes (ρ : Matching) : Dict String Scheme → Dict String Scheme → Prop :=
  Dict.Rel Eq ρ.Schemes

theorem Scopes.insert {scope' : Dict String Scheme} (h : ρ.Scopes scope scope') (name : String)
    (hσ : ρ.Schemes σ σ') :
    ρ.Scopes (scope.insert name σ) (scope'.insert name σ') :=
  Dict.Rel.insert (fun hk hl => by rw [hk, hl]) h rfl hσ

/-- The scope only gives hidden names types, which are variables without a match. -/
def Hides (ρ : Matching) (hidden : List String) (scope : Dict String Scheme) : Prop :=
  ∀ entry ∈ scope.entries, entry.1 ∈ hidden ∧
    ∃ own, (∀ v, ¬ ρ.types v own) ∧ entry.2 = .mono (.var own)

/-- The second scheme is instantiated like one that matches the first. -/
def Uses (ρ : Matching) (σ σ' : Scheme) : Prop :=
  ∃ τ, ρ.Schemes σ τ ∧ Infer.instantiate τ = Infer.instantiate σ'

theorem Schemes.uses (h : ρ.Schemes σ σ') : ρ.Uses σ σ' :=
  ⟨σ', h, rfl⟩

/-- Environments in which names have schemes that are used alike, except for `hidden` globals. The
second one may have more scopes, outside all others, that are about hidden names only. All names in
`bound` are in local scopes. -/
structure Envs (ρ : Matching) (hidden bound : List String) (Γ Γ' : Env) : Prop where
  globals : ∀ name ∉ hidden, Option.Rel ρ.Uses (Γ.globals.get? name) (Γ'.globals.get? name)
  scopes : ∃ inner outer, Forall₂ ρ.Scopes Γ.scopes inner ∧
    (∀ scope ∈ outer, ρ.Hides hidden scope) ∧ Γ'.scopes = inner ++ outer
  bound : ∀ name ∈ bound, ∃ scope ∈ Γ.scopes, (scope.get? name).isSome

theorem rel_findSome? {scopes scopes' : List (Dict String Scheme)}
    (h : Forall₂ ρ.Scopes scopes scopes') (name : String) :
    Option.Rel ρ.Schemes (scopes.findSome? (·.get? name)) (scopes'.findSome? (·.get? name)) := by
  induction h with
  | nil => exact .none
  | @cons scope scope' _ _ hscope _ ih =>
    have hfound : Option.Rel ρ.Schemes (scope.get? name) (scope'.get? name) :=
      Dict.Rel.get? biUnique_eq hscope rfl
    rw [findSome?_cons, findSome?_cons]
    generalize scope.get? name = found at hfound ⊢
    generalize scope'.get? name = found' at hfound ⊢
    cases hfound with
    | some hσ => exact .some hσ
    | none => exact ih

variable {hidden bound : List String} {Γ Γ' : Env}

/-- A reference to a name that is not hidden finds schemes that are used alike. -/
theorem Envs.get? (h : ρ.Envs hidden bound Γ Γ') {name : String}
    (hname : name ∈ bound ∨ name ∉ hidden) : Option.Rel ρ.Uses (Γ.get? name) (Γ'.get? name) := by
  obtain ⟨inner, outer, hinner, houter, hscopes⟩ := h.scopes
  have hfound := rel_findSome? hinner name
  rw [Env.get?, Env.get?, hscopes, findSome?_append]
  generalize hlocal : Γ.scopes.findSome? (·.get? name) = found at hfound ⊢
  generalize inner.findSome? (·.get? name) = found' at hfound ⊢
  cases hfound with
  | some hσ => exact .some hσ.uses
  | none =>
    have hname : name ∉ hidden := by
      refine hname.resolve_left fun hbound => ?_
      obtain ⟨scope, hscope, hsome⟩ := h.bound name hbound
      rw [findSome?_eq_none_iff.mp hlocal scope hscope] at hsome
      cases hsome
    have hnone : outer.findSome? (·.get? name) = none := by
      refine findSome?_eq_none_iff.mpr fun scope hscope => ?_
      by_contra hsome
      obtain ⟨σ, hσ⟩ := Option.ne_none_iff_exists'.mp hsome
      exact hname (houter scope hscope _ (Dict.mem_entries_of_get? hσ)).1
    simpa [hnone] using h.globals name hname

theorem Schemes.mem_freeVars_iff {s' : Subst} (hs : ρ.Valuations ρ s.valuation s'.valuation)
    (h : ρ.Schemes σ σ')
    {x x' : Var} (hx : ρ.Vars x x') : x ∈ σ.freeVars s ↔ x' ∈ σ'.freeVars s' := by
  have htype : ρ.Types (s.apply σ.type) (s'.apply σ'.type) := h.type.under hs
  rw [Scheme.freeVars, Scheme.freeVars, mem_filter, mem_filter, Ty.vars, Ty.vars,
    mem_distinct, mem_distinct, htype.mem_occurrences_iff hx]
  refine and_congr_right fun _ => ?_
  cases hx with
  | type hv => simp [rel_mem ρ.biUnique_types hv h.typeVars]
  | effect he => simp [rel_mem ρ.biUnique_effects he h.effectVars]

theorem exists_mem_iff_of_forall₂ {α β : Type} {R : α → β → Prop} {as : List α} {bs : List β}
    (h : Forall₂ R as bs) {p : α → Prop} {q : β → Prop} (hpq : ∀ {a b}, R a b → (p a ↔ q b)) :
    (∃ a ∈ as, p a) ↔ ∃ b ∈ bs, q b := by
  induction h with
  | nil => simp
  | cons hab _ ih => simp [hpq hab, ih]

/-- Hidden names contribute no variable that has a match. -/
theorem Hides.not_mem_freeVars (h : ρ.Hides hidden scope)
    (hunmatched : ∀ {v'}, (∀ v, ¬ ρ.types v v') → s.types.get? v' = none) (hσ : σ ∈ scope.values)
    {x x' : Var} (hx : ρ.Vars x x') : x' ∉ σ.freeVars s := by
  obtain ⟨entry, hentry, rfl⟩ := mem_map.mp hσ
  obtain ⟨-, own, hown, heq⟩ := h entry hentry
  intro hx'
  have happly : s.apply (.var own) = .var own := by
    rw [Subst.apply_eq_under]
    exact Subst.types_of_unbound (hunmatched hown)
  rw [heq, Scheme.freeVars, mem_filter, Ty.vars, mem_distinct] at hx'
  have hocc := hx'.1
  simp only [Scheme.mono, happly, Ty.occurrences, mem_singleton] at hocc
  subst hocc
  cases hx with
  | type hv => exact hown _ hv

/-- The same variables are free in the local scopes. -/
theorem Envs.fixed (h : ρ.Envs hidden bound Γ Γ') {s' : Subst}
    (hunmatched : ∀ {v'}, (∀ v, ¬ ρ.types v v') → s'.types.get? v' = none)
    (hs : ρ.Valuations ρ s.valuation s'.valuation) : ρ.Fixed (Γ.freeVars s) (Γ'.freeVars s') := by
  obtain ⟨inner, outer, hinner, houter, hscopes⟩ := h.scopes
  have hmem {x x' : Var} (hx : ρ.Vars x x') :
      x ∈ (Γ.scopes.flatMap (·.values)).flatMap (·.freeVars s) ↔
        x' ∈ (Γ'.scopes.flatMap (·.values)).flatMap (·.freeVars s') := by
    have hvalues : Forall₂ ρ.Schemes (Γ.scopes.flatMap (·.values))
        (inner.flatMap (·.values)) := rel_flatMap hinner fun _ _ hscope => hscope.values
    have hself : x' ∉ (outer.flatMap (·.values)).flatMap (·.freeVars s') := by
      rw [mem_flatMap]
      rintro ⟨σ, hσ, hx'⟩
      obtain ⟨scope, hscope, hσ⟩ := mem_flatMap.mp hσ
      exact (houter scope hscope).not_mem_freeVars hunmatched hσ hx hx'
    rw [mem_flatMap, exists_mem_iff_of_forall₂ hvalues fun hσ => hσ.mem_freeVars_iff hs hx,
      ← mem_flatMap, hscopes, flatMap_append, flatMap_append, mem_append,
      or_iff_left hself]
  constructor
  · intro v v' hv
    rw [Env.freeVars, Env.freeVars, Sorted.mem_ofList, Sorted.mem_ofList, Var.mem_filterMap_type?,
      Var.mem_filterMap_type?]
    exact hmem (.type hv)
  · intro e e' he
    rw [Env.freeVars, Env.freeVars, Sorted.mem_ofList, Sorted.mem_ofList, Var.mem_filterMap_effect?,
      Var.mem_filterMap_effect?]
    exact hmem (.effect he)

/-! ## Binding names -/

/-- The environment with one more scope. -/
def inScope (Γ : Env) (scope : Dict String Scheme) : Env :=
  { Γ with scopes := scope :: Γ.scopes }

/-- Two inferences that have bound the same names in new scopes, `names` among them. -/
def Scoped (ρ : Matching) (Γ Γ' : Env) (names : List String) (st st' : InferState) : Prop :=
  ∃ scope scope', ρ.Scopes scope scope' ∧ (∀ name ∈ names, (scope.get? name).isSome) ∧
    ρ.States (inScope Γ scope) (inScope Γ' scope') st st'

theorem Envs.inScope (h : ρ.Envs hidden bound Γ Γ') {scope' : Dict String Scheme}
    (hscope : ρ.Scopes scope scope')
    {names : List String} (hnames : ∀ name ∈ names, (scope.get? name).isSome) :
    ρ.Envs hidden (names ++ bound) (inScope Γ scope) (inScope Γ' scope') where
  globals := h.globals
  scopes := by
    obtain ⟨inner, outer, hinner, houter, hscopes⟩ := h.scopes
    exact ⟨scope' :: inner, outer, .cons hscope hinner, houter, congrArg (scope' :: ·) hscopes⟩
  bound name hname := by
    rcases mem_append.mp hname with hname | hname
    · exact ⟨scope, .head _, hnames name hname⟩
    · obtain ⟨outer, houter, hsome⟩ := h.bound name hname
      exact ⟨outer, .tail _ houter, hsome⟩

theorem Scoped.subset {names names' : List String} {st st' : InferState}
    (h : ρ.Scoped Γ Γ' names st st') (hsub : ∀ name ∈ names', name ∈ names) :
    ρ.Scoped Γ Γ' names' st st' := by
  obtain ⟨scope, scope', hscope, hnames, hst⟩ := h
  exact ⟨scope, scope', hscope, fun name hname => hnames name (hsub name hname), hst⟩

end Matching

namespace Infer

open Matching

variable {ρ : Matching} {hidden bound names : List String} {Γ Γ' : Env}

/-- What is in step in every pair of new scopes leaves the bound names as they are. -/
theorem scoped_of_together {α β : Type} {x : InferM α} {y : InferM β} {R : α → β → Prop}
    (h : ∀ {scope scope'}, ρ.Scopes scope scope' → (∀ name ∈ names, (scope.get? name).isSome) →
      Together ρ (inScope Γ scope) (inScope Γ' scope') x y R) :
    InStep ρ.Errors (ρ.Scoped Γ Γ' names) x y R (ρ.Scoped Γ Γ' names) := by
  rintro st st' ⟨scope, scope', hscope, hnames, hst⟩
  exact (h hscope hnames hst).imp id fun hst₁ => ⟨scope, scope', hscope, hnames, hst₁⟩

theorem scoped_bind (name : String) {σ σ' : Scheme} (hσ : ρ.Schemes σ σ') :
    InStep ρ.Errors (ρ.Scoped Γ Γ' names) (bind name σ) (bind name σ') (fun _ _ => True)
      (ρ.Scoped Γ Γ' (name :: names)) := by
  refine .modify ?_
  rintro st st' ⟨scope, scope', hscope, hnames, hst⟩
  refine ⟨scope.insert name σ, scope'.insert name σ', hscope.insert name hσ, ?_,
    { hst with env := ?_, env' := ?_ }⟩
  · intro other hother
    by_cases heq : other = name
    · simp [heq]
    · simpa [heq] using hnames other ((mem_cons.mp hother).resolve_left heq)
  · simp only [hst.env]
    rfl
  · simp only [hst.env']
    rfl

/-- A scope is opened and closed in step. -/
theorem together_withScope {α β : Type} {x : InferM α} {y : InferM β} {R : α → β → Prop}
    (h : InStep ρ.Errors (ρ.Scoped Γ Γ' []) x y R (ρ.Scoped Γ Γ' names)) :
    Together ρ Γ Γ' (withScope x) (withScope y) R := by
  intro st st' hst
  have hstart : ρ.Scoped Γ Γ' [] { st with env := st.env.push }
      { st' with env := st'.env.push } := by
    refine ⟨.empty, .empty, .nil, by simp, { hst with env := ?_, env' := ?_ }⟩
    · simp only [hst.env]
      rfl
    · simp only [hst.env']
      rfl
  have hrun := h hstart
  unfold withScope
  generalize x { st with env := st.env.push } = r at hrun ⊢
  generalize y { st' with env := st'.env.push } = r' at hrun ⊢
  cases hrun with
  | error he => exact .error he
  | ok hab hscoped =>
    obtain ⟨scope, scope', -, -, hst₁⟩ := hscoped
    refine .ok hab { hst₁ with env := ?_, env' := ?_ }
    · simp only [closeScope, hst₁.env]
      rfl
    · simp only [closeScope, hst₁.env']
      rfl

/-! ## Patterns -/

end Infer

/-- The order of ids is preserved, and the variables of data types match themselves. -/
structure Matching.Keeps (ρ : Matching) (reg : Registry) : Prop extends ρ.Increasing where
  params : ∀ {name d}, reg.dataTypes.get? name = some d → ∀ v ∈ d.paramVars, ρ.types v v
  fields : ∀ {name d}, reg.dataTypes.get? name = some d →
    ∀ c ∈ d.constructors, ∀ t ∈ c.fields, ρ.Types t t

/-- A constructor that is found belongs to the data type it is found with. -/
theorem DataTypes.of_constructor? {ds : DataTypes} {name : String} {d : DataType} {c : Constructor}
    (h : ds.constructor? name = some (d, c)) :
    (∃ owner, ds.get? owner = some d) ∧ c ∈ d.constructors := by
  simp only [constructor?, Option.bind_eq_bind, Option.bind_eq_some_iff] at h
  obtain ⟨owner, -, d', hd, c', hc, heq⟩ := h
  obtain ⟨rfl, rfl⟩ := by simpa using heq
  exact ⟨⟨owner, hd⟩, mem_of_find?_eq_some hc⟩

variable {ρ : Matching}

theorem Literal.types_type (value : Literal) : ρ.Types value.type value.type := by
  cases value <;> exact .prim _

theorem Matching.types_resultType {d : DataType} (h : ∀ v ∈ d.paramVars, ρ.types v v) :
    ρ.Types d.resultType d.resultType := by
  refine .named d.name ?_
  rw [forall₂_map_left_iff, forall₂_map_right_iff]
  exact forall₂_same.mpr fun v hv => .var (h v hv)

theorem Matching.schemes_mono {t t' : Ty} (h : ρ.Types t t') : ρ.Schemes (.mono t) (.mono t') :=
  ⟨.nil, .nil, .nil, names_empty, h⟩

namespace Infer

open Matching

variable {ρ : Matching} {hidden bound names : List String} {Γ Γ' : Env} {reg : Registry} {t t' : Ty}

mutual

/-- A pattern binds its names in step. -/
theorem scoped_pattern (hreg : ρ.Keeps reg) (p : Pattern) {names : List String} {t t' : Ty}
    (ht : ρ.Types t t') :
    InStep ρ.Errors (ρ.Scoped Γ Γ' names) (pattern reg p t) (pattern reg p t') (fun _ _ => True)
      (ρ.Scoped Γ Γ' (p.boundNames ++ names)) := by
  cases p with
  | wildcard span =>
    rw [pattern, pattern]
    exact .pure trivial
  | var span name =>
    rw [pattern, pattern]
    exact scoped_bind name (schemes_mono ht)
  | lit span value =>
    rw [pattern, pattern]
    exact scoped_of_together fun _ _ => together_unify ht value.types_type _
  | constructor span name args =>
    rw [pattern, pattern]
    rcases hc : reg.dataTypes.constructor? name with _ | ⟨d, c⟩
    · exact .throw (.same _)
    obtain ⟨⟨owner, hd⟩, hmem⟩ := DataTypes.of_constructor? hc
    dsimp only
    split
    · exact .throw_bind (.same _)
    rename_i hlength
    simp only [ne_eq, not_not] at hlength
    have hparams := hreg.params hd
    refine (scoped_of_together fun _ _ => together_renewTypes
      ⟨substs_empty, Subst.sameSize_empty⟩ (forall₂_same.mpr hparams)).bind fun s s' hs => ?_
    have hvaluations := hs.1.valuations_of_sameSize hs.2
    refine (scoped_of_together fun _ _ => together_unify ht
      ((types_resultType hparams).under hvaluations) _).bind fun _ _ _ => ?_
    refine scoped_patterns hreg args ?_ (by simp [hlength])
    rw [forall₂_map_left_iff, forall₂_map_right_iff]
    exact forall₂_same.mpr fun t ht => (hreg.fields hd c hmem t ht).under hvaluations
  | tuple span elems =>
    rw [pattern, pattern]
    refine (scoped_of_together fun _ _ => together_freshTypes elems).bind fun ts ts' hts => ?_
    refine (scoped_of_together fun _ _ => together_unify ht (.tuple hts.1) _).bind fun _ _ _ => ?_
    exact scoped_patterns hreg elems hts.1 hts.2

theorem scoped_patterns (hreg : ρ.Keeps reg) (ps : List Pattern) {names : List String}
    {ts ts' : List Ty} (hts : Forall₂ ρ.Types ts ts') (hlength : ts.length = ps.length) :
    InStep ρ.Errors (ρ.Scoped Γ Γ' names) (patterns reg ps ts) (patterns reg ps ts')
      (fun _ _ => True) (ρ.Scoped Γ Γ' (Pattern.boundNamesAll ps ++ names)) := by
  cases ps with
  | nil =>
    rw [patterns, patterns]
    · exact .pure trivial
    all_goals simp
  | cons p ps =>
    cases hts with
    | nil => cases hlength
    | cons ht hts =>
      rw [patterns, patterns]
      refine (scoped_pattern hreg p ht).bind fun _ _ _ => ?_
      refine (scoped_patterns hreg ps hts (Nat.succ.inj hlength)).imp (fun _ _ h => h)
        (fun _ _ h => h) fun st st' h => h.subset fun name hname => ?_
      simp only [Pattern.boundNamesAll, mem_append] at hname ⊢
      tauto

end

theorem scoped_parameters (hreg : ρ.Keeps reg) (ps : List Pattern) :
    InStep ρ.Errors (ρ.Scoped Γ Γ' names) (parameters reg ps) (parameters reg ps) (Forall₂ ρ.Types)
      (ρ.Scoped Γ Γ' (Pattern.boundNamesAll ps ++ names)) := by
  induction ps generalizing names with
  | nil => exact .pure .nil
  | cons p ps ih =>
    refine (scoped_of_together fun _ _ => together_freshType).bind fun t t' ht => ?_
    refine (scoped_pattern hreg p ht).bind fun _ _ _ => ?_
    refine ih.bind fun ts ts' hts => (InStep.pure (.cons ht hts)).imp (fun st st' h => ?_)
      (fun _ _ h => h) fun _ _ h => h
    refine h.subset fun name hname => ?_
    simp only [Pattern.boundNamesAll, mem_append] at hname ⊢
    tauto

/-! ## Local definitions -/

theorem together_splitObligations (henv : ρ.Envs hidden bound Γ Γ') (ht : ρ.Types t t') :
    Together ρ Γ Γ' (splitObligations t) (splitObligations t') fun r r' =>
      ρ.Fixed r.1 r'.1 ∧ Forall₂ ρ.Obligations r.2 r'.2 := by
  refine .get_bind fun st st' hst => .at_states (P := ρ.States Γ Γ') ?_ hst
  have hfixed : ρ.Fixed (st.env.freeVars st.subst) (st'.env.freeVars st'.subst) := by
    rw [hst.env, hst.env']
    exact henv.fixed hst.unmatched hst.valuations
  have hown {v v' : TypeVar} (hv : ρ.types v v') :
      v ∈ (st.subst.apply t).typeVars.filter (!(st.env.freeVars st.subst).types.contains ·) ↔
        v' ∈ (st'.subst.apply t').typeVars.filter
          (!(st'.env.freeVars st'.subst).types.contains ·) := by
    simp [(hst.apply ht).mem_typeVars_iff hv, hfixed.types hv]
  -- what belongs to the definition alone is decided by its type variables
  have hlocal {ob ob' : Obligation} (hob : ρ.Obligations ob ob') :
      (!(st.subst.apply ob.type).typeVars.isEmpty && (st.subst.apply ob.type).typeVars.all
        (((st.subst.apply t).typeVars.filter
          (!(st.env.freeVars st.subst).types.contains ·)).contains ·)) =
      (!(st'.subst.apply ob'.type).typeVars.isEmpty && (st'.subst.apply ob'.type).typeVars.all
        (((st'.subst.apply t').typeVars.filter
          (!(st'.env.freeVars st'.subst).types.contains ·)).contains ·)) := by
    have htype := hst.apply hob.type
    rw [htype.isEmpty_typeVars, htype.all_typeVars fun hv => ?_]
    rw [contains_eq_mem, contains_eq_mem, decide_eq_decide]
    exact hown hv
  refine together_takeObligations.bind fun obs obs' hobs => ?_
  simp only [partition_eq_filter_filter]
  have hshared := forall₂_filter hobs fun hob => congrArg (!·) (hlocal hob)
  refine (together_defer hshared).bind fun _ _ _ => .pure ⟨⟨fun hv => ?_, hfixed.effects⟩,
    forall₂_filter hobs hlocal⟩
  simp only [FixedVars.insertTypes, Sorted.mem_ofList, mem_append, hfixed.types hv,
    mem_flatMap]
  exact or_congr_right (exists_mem_iff_of_forall₂ hshared fun hob =>
    (hst.apply hob.type).mem_typeVars_iff hv)

theorem scoped_bindGeneralized (hρ : ρ.Increasing) (henv : ρ.Envs hidden bound Γ Γ') (span : Span)
    (name : String) (ht : ρ.Types t t') :
    InStep ρ.Errors (ρ.Scoped Γ Γ' names) (bindGeneralized span name t)
      (bindGeneralized span name t') (fun _ _ => True) (ρ.Scoped Γ Γ' (name :: names)) := by
  refine (scoped_of_together fun hscope hnames =>
    together_splitObligations (henv.inScope hscope hnames) ht).bind ?_
  rintro ⟨fixed, inner⟩ ⟨fixed', inner'⟩ ⟨hfixed, hinner⟩
  refine .get_bind fun st st' hst => .at_states (P := ρ.Scoped Γ Γ' names) ?_ hst
  obtain ⟨scope, scope', -, -, hstates⟩ := hst
  have hgen := generalize_lockstep hρ ht hinner hstates.valuations hfixed hstates.names
  generalize generalize t inner st.subst fixed st.names = r at hgen ⊢
  generalize generalize t' inner' st'.subst fixed' st'.names = r' at hgen ⊢
  cases hgen with
  | error he => exact .throw he
  | ok h =>
    exact (scoped_of_together fun _ _ => together_defer h.2).bind fun _ _ _ =>
      (scoped_of_together fun _ _ => together_record ..).bind fun _ _ _ => scoped_bind name h.1

theorem scoped_bindLet (henv : ρ.Envs hidden bound Γ Γ') (hreg : ρ.Keeps reg) (p : Pattern)
    (value : Expr) (ht : ρ.Types t t') :
    InStep ρ.Errors (ρ.Scoped Γ Γ' names) (bindLet reg p value t) (bindLet reg p value t')
      (fun _ _ => True) (ρ.Scoped Γ Γ' (p.boundNames ++ names)) := by
  cases p with
  | var span name =>
    simp only [bindLet]
    split
    · exact scoped_bindGeneralized hreg.toIncreasing henv span name ht
    · exact (scoped_of_together fun _ _ => together_apply ht).bind fun _ _ ht =>
        scoped_bind name (schemes_mono ht)
  | wildcard | lit | constructor | tuple => exact scoped_pattern hreg _ ht

end Infer

end RowTyping
