import RowTyping.Proofs.Infer.Operations

/-!
# Generalised types

Generalisation quantifies over variables that are neither free in the environment nor fixed
otherwise, after closing tails that nothing else can see. Every instance of the resulting scheme is
what the type stands for under some valuation that leaves the context as it is
(`Infer.exists_valuation_of_instances`), and its quantified variables are outside a region that
inference stays in from then on (`Infer.apart_of_generalizes`).
-/

namespace RowTyping

open List

theorem Var.mem_filterMap_type? {v : TypeVar} {xs : List Var} :
    v ∈ xs.filterMap Var.type? ↔ .type v ∈ xs := by
  rw [mem_filterMap]
  constructor
  · rintro ⟨_ | _, hx, hv⟩ <;> cases hv
    exact hx
  · exact fun hv => ⟨_, hv, rfl⟩

theorem Var.mem_filterMap_effect? {e : EffectVar} {xs : List Var} :
    e ∈ xs.filterMap Var.effect? ↔ .effect e ∈ xs := by
  rw [mem_filterMap]
  constructor
  · rintro ⟨_ | _, hx, he⟩ <;> cases he
    exact hx
  · exact fun he => ⟨_, he, rfl⟩

variable {t : Ty} {deferred residual : List Obligation} {fixed : FixedVars} {hints : VarNames}
  {s : Subst} {σ : Scheme}

theorem Ty.mem_typeVars {v : TypeVar} : v ∈ t.typeVars ↔ .type v ∈ t.occurrences := by
  rw [typeVars, Sorted.mem_ofList, typeOccurrences, Var.mem_filterMap_type?]

/-! ## Grouping of requirements -/

namespace TraitGroups

theorem group_add (gs : TraitGroups) (g : Given) (name : String) :
    (gs.add g).group name = if name = g.traitName ∧ g ∉ gs.group name then gs.group name ++ [g]
      else gs.group name := by
  by_cases hname : name = g.traitName
  · subst hname
    simp only [group, add, Dict.get?_insert, if_true, Option.getD_some, true_and]
    split <;> simp_all
  · simp [group, add, hname]

/-- The groups hold the distinct requirements of a list: traits and the requirements on each are in
the order of their first use. -/
structure Of (givens : List Given) (gs : TraitGroups) : Prop where
  order : gs.order = distinct (givens.map (·.traitName))
  groups : ∀ name, gs.group name = (distinct givens).filter (·.traitName = name)

theorem Of.add {givens : List Given} {gs : TraitGroups} (h : Of givens gs) (g : Given) :
    Of (givens ++ [g]) (gs.add g) where
  order := by
    simp only [TraitGroups.add, h.order, mem_distinct, map_append, map_cons, map_nil,
      distinct_concat]
  groups name := by
    rw [group_add, h.groups, distinct_concat]
    by_cases hname : g.traitName = name
    · by_cases hg : g ∈ givens <;> simp [hname, hg]
    · by_cases hg : g ∈ givens <;> simp [hname, hg, Ne.symm hname]

theorem Of.foldl {givens : List Given} {gs : TraitGroups} (h : Of givens gs) (more : List Given) :
    Of (givens ++ more) (more.foldl TraitGroups.add gs) := by
  induction more generalizing givens gs with
  | nil => rwa [append_nil]
  | cons g more ih =>
    have hrest := ih (h.add g)
    rwa [append_assoc] at hrest

/-- Taking a group out leaves the groups of the other traits. -/
theorem drain_eq {names : List String} (hnames : names.Nodup) (groups : Dict String (List Given)) :
    drain names groups = names.flatMap fun name => (groups.get? name).getD [] := by
  induction names generalizing groups with
  | nil => rfl
  | cons name names ih =>
    obtain ⟨hname, hnames⟩ := nodup_cons.mp hnames
    rw [drain, ih hnames, flatMap_cons]
    refine congrArg _ (flatMap_congr fun other hother => ?_)
    have hne : other ≠ name := fun heq => hname (heq ▸ hother)
    rw [Dict.get?_erase, if_neg hne]

end TraitGroups

/-- Grouping lists, trait by trait in order of first use, the distinct requirements on it. -/
theorem groupByTrait_eq (givens : List Given) :
    groupByTrait givens = (distinct (givens.map (·.traitName))).flatMap fun name =>
      (distinct givens).filter (·.traitName = name) := by
  have hnone : TraitGroups.Of [] {} := ⟨rfl, fun _ => rfl⟩
  have hof := hnone.foldl givens
  rw [nil_append] at hof
  rw [groupByTrait, TraitGroups.drain_eq (hof.order ▸ nodup_distinct _), hof.order]
  exact flatMap_congr fun name _ => hof.groups name

theorem mem_groupByTrait {g : Given} {givens : List Given} :
    g ∈ groupByTrait givens ↔ g ∈ givens := by
  simp only [groupByTrait_eq, mem_flatMap, mem_filter, mem_distinct, mem_map,
    decide_eq_true_eq]
  constructor
  · rintro ⟨_, _, hg, _⟩
    exact hg
  · intro hg
    exact ⟨_, ⟨g, hg, rfl⟩, hg, rfl⟩

namespace Generalize

/-! ## Closing tails -/

variable {tails : List EffectVar} {x : Var}

private theorem get?_foldl_bindEffect {s : Subst} {e : EffectVar} {r : Row}
    (h : (tails.foldl (fun s e => s.bindEffect e .pure) s).effects.get? e = some r) :
    e ∈ tails ∧ r = .pure ∨ s.effects.get? e = some r := by
  induction tails generalizing s with
  | nil => exact .inr h
  | cons e' tails ih =>
    rcases ih h with ⟨he, hr⟩ | hs
    · exact .inl ⟨.tail _ he, hr⟩
    · by_cases heq : e = e'
      · obtain rfl : Row.pure = r := by simpa [Subst.bindEffect, heq] using hs
        exact .inl ⟨heq ▸ (.head _), rfl⟩
      · exact .inr (by simpa [Subst.bindEffect, heq] using hs)

private theorem types_foldl_bindEffect (s : Subst) :
    (tails.foldl (fun s e => s.bindEffect e .pure) s).types = s.types := by
  induction tails generalizing s with
  | nil => rfl
  | cons e tails ih => exact ih _

theorem effects_closing {e : EffectVar} {r : Row} (h : (closing tails).effects.get? e = some r) :
    e ∈ tails ∧ r = .pure :=
  (get?_foldl_bindEffect h).resolve_right fun h => (nomatch h)

theorem types_closing (tails : List EffectVar) (v : TypeVar) :
    (closing tails).types.get? v = none := by
  rw [closing, types_foldl_bindEffect]
  rfl

theorem not_leadsTo_closing {y : Var} : ¬ (closing tails).LeadsTo x y := by
  intro hxy
  rcases Subst.leadsTo_iff.mp hxy with ⟨v, t, rfl, ht, -⟩ | ⟨e, r, f, rfl, hr, hf, -⟩
  · rw [types_closing] at ht
    cases ht
  · rw [(effects_closing hr).2] at hf
    cases hf

theorem acyclic_closing : (closing tails).Acyclic :=
  Subst.acyclic_empty.of_sinks fun _ _ hxy => (not_leadsTo_closing hxy).elim

theorem not_binds_closing (h : ∀ e ∈ tails, x ≠ .effect e) : ¬ (closing tails).Binds x := by
  intro hx
  rcases x with v | e
  · simp [Subst.Binds, types_closing] at hx
  · obtain ⟨r, hr⟩ := Option.isSome_iff_exists.mp hx
    exact h e (effects_closing hr).1 rfl

/-- Closing tails leaves no new variables behind. -/
theorem image_closing {y : Var} (h : y ∈ (closing tails).valuation.image x) : y = x := by
  rcases (acyclic_closing.mem_image h).1.cases_head with heq | ⟨z, hxz, -⟩
  · exact heq.symm
  · exact (not_leadsTo_closing hxz).elim

theorem mem_occurrences_closing {t : Ty} (h : x ∈ ((closing tails).apply t).occurrences) :
    x ∈ t.occurrences := by
  obtain ⟨y, hy, hx⟩ := Subst.mem_occurrences_apply.mp h
  rwa [image_closing hx]

theorem rowsSorted_closing {t : Ty} (h : t.RowsSorted) : ((closing tails).apply t).RowsSorted := by
  rw [Subst.apply_eq_under]
  refine h.under fun v _ => ?_
  rw [Subst.types_of_unbound (types_closing tails v)]
  exact fun r hr => (not_mem_nil hr).elim

end Generalize

/-! ## Quantifying -/

/-- The variable must stay as it is. -/
def FixedVars.Has (fixed : FixedVars) : Var → Prop
  | .type v => v ∈ fixed.types
  | .effect e => e ∈ fixed.effects

/-- The scheme comes from a type by closing tails that are not fixed and quantifying over all
variables that are not. -/
structure Scheme.Generalizes (σ : Scheme) (t : Ty) (s : Subst) (fixed : FixedVars)
    (tails : List EffectVar) : Prop where
  type : σ.type = (Generalize.closing tails).apply (s.apply t)
  tails : ∀ e ∈ tails, ¬ fixed.Has (.effect e)
  quantified : ∀ x, x ∈ σ.quantified ↔ x ∈ σ.type.occurrences ∧ ¬ fixed.Has x

theorem generalize_ok (h : generalize t residual s fixed hints = .ok (σ, deferred)) :
    ∃ tails, σ.Generalizes t s fixed tails := by
  simp only [generalize] at h
  split at h
  · cases h
  · injection h with h
    obtain ⟨rfl, -⟩ := Prod.mk.inj h
    refine ⟨Generalize.singletonTails (s.apply t) residual fixed, rfl, fun e he => ?_, fun x => ?_⟩
    · -- only tails that are not fixed are closed
      have hfixed := (mem_filter.mp he).2
      simp only [Bool.and_eq_true, Bool.not_eq_true', contains_eq_mem,
        decide_eq_false_iff_not] at hfixed
      exact hfixed.2
    · rcases x with v | e
      · rw [Scheme.mem_quantified_type, mem_filter, Var.mem_filterMap_type?, Ty.vars,
          mem_distinct]
        simp [FixedVars.Has]
      · rw [Scheme.mem_quantified_effect, mem_filter, Var.mem_filterMap_effect?, Ty.vars,
          mem_distinct]
        simp [FixedVars.Has]

namespace Scheme

variable {σ : Scheme} {t : Ty} {s : Subst} {fixed : FixedVars} {tails : List EffectVar}
  {f : Fresh} {P : Region}

namespace Generalizes

variable (h : σ.Generalizes t s fixed tails)
include h

theorem mem_occurrences {x : Var}
    (hx : x ∈ σ.type.occurrences) : x ∈ (s.apply t).occurrences := by
  rw [h.type] at hx
  exact Generalize.mem_occurrences_closing hx

theorem not_binds (hs : s.Acyclic) {x : Var}
    (hx : x ∈ σ.type.occurrences) : ¬ s.Binds x := by
  obtain ⟨y, -, hy⟩ := Subst.mem_occurrences_apply.mp (h.mem_occurrences hx)
  exact (hs.mem_image hy).2

theorem type_over (hs : s.Acyclic)
    (hP : s.ClosedOn P) (ht : t.Over P) : σ.type.Over P :=
  fun x hx => hs.apply_over hP ht x (h.mem_occurrences hx)

theorem usable (hs : s.Valid f)
    (ht : t.Usable f) : σ.Usable f := by
  have htype : σ.type.Usable f := by
    refine ⟨?_, h.type_over hs.acyclic hs.closedOn ht.drawn⟩
    rw [h.type]
    exact Generalize.rowsSorted_closing (hs.apply_usable ht).sorted
  exact ⟨htype, fun hx => htype.drawn _ ((h.quantified _).mp hx).1⟩

/-- Every instance of the scheme is what the type stands for under a valuation that absorbs the
substitution and gives fixed variables the meaning they had. -/
theorem exists_valuation (hs : s.Acyclic)
    {U : Valuation} (hU : U.Absorbs s) {t' : Ty} (ht' : σ.HasInstance U t') :
    ∃ U', U'.Absorbs s ∧ t' = t.under U' ∧
      ∀ x, (∀ y ∈ s.valuation.image x, fixed.Has y) → U'.AgreesAt U x := by
  obtain ⟨W, hW, rfl⟩ := ht'
  -- follow the bindings, close the tails, then instantiate
  let closed := (Generalize.closing tails).valuation
  refine ⟨s.valuation.andThen (closed.andThen W), hs.absorbs_andThen _, ?_, fun x hx => ?_⟩
  · rw [h.type, Subst.apply_eq_under, Subst.apply_eq_under, Ty.under_andThen, Ty.under_andThen]
  · -- neither closing nor instantiating touches a fixed variable
    have hfixed : ∀ y ∈ s.valuation.image x, (closed.andThen W).AgreesAt U y := by
      intro y hy
      have hunquantified : y ∉ σ.quantified := fun hq => ((h.quantified y).mp hq).2 (hx y hy)
      have hopen : ¬ (Generalize.closing tails).Binds y := by
        refine Generalize.not_binds_closing ?_
        rintro e he rfl
        exact h.tails e he (hx _ hy)
      exact (Subst.agreesAt_of_not_binds hopen W).trans (hW y hunquantified)
    rw [← hU]
    exact .andThen (hU ▸ hfixed)

end Generalizes

end Scheme

/-! ## Local definitions -/

/-- The free variables of the local scopes under a substitution are fixed. -/
theorem Env.has_freeVars {env : Env} {τ : Scheme} (hτ : τ ∈ env.locals) {y : Var}
    (hy : y ∈ (s.apply τ.type).occurrences) (hq : y ∉ τ.quantified) : (env.freeVars s).Has y := by
  have hvar : y ∈ env.locals.flatMap (·.freeVars s) := by
    refine mem_flatMap.mpr ⟨τ, hτ, mem_filter.mpr ⟨mem_distinct.mpr hy, ?_⟩⟩
    rcases y with v | e
    · simpa [Scheme.mem_quantified_type] using hq
    · simpa [Scheme.mem_quantified_effect] using hq
  rcases y with v | e
  · exact Sorted.mem_ofList.mpr (Var.mem_filterMap_type?.mpr hvar)
  · exact Sorted.mem_ofList.mpr (Var.mem_filterMap_effect?.mpr hvar)

namespace Infer

variable {st st' : InferState} {reg : Registry} {t : Ty} {name : String} {σ : Scheme}
  {fixed : FixedVars} {tails : List EffectVar} {I : Region → Prop}

/-- What the free variables of local schemes that are apart stand for is fixed. -/
theorem has_freeVars_of_apart (hst : st.subst.Acyclic) (happart : st.Apart I) {τ : Scheme}
    (hτ : τ ∈ st.env.locals) {x y : Var} (hx : τ.Free x) (hy : y ∈ st.subst.valuation.image x) :
    (st.env.freeVars st.subst).Has y := by
  obtain ⟨P, hP, hover, -, hq⟩ := happart τ hτ
  -- the scheme's own quantified variables are outside the region, so `y` is not one of them
  refine Env.has_freeVars hτ (Subst.mem_occurrences_apply.mpr ⟨x, hx.1, hy⟩) fun hquantified => ?_
  exact hq y hquantified (hst.image_over hP.closed (hover τ hτ x hx) hy)

/-- The obligations of a local definition are taken, and the others stay. -/
theorem splitObligations_ok {inner : List Obligation}
    (h : splitObligations t st = .ok (fixed, inner) st') :
    (st'.subst = st.subst ∧ st'.fresh = st.fresh ∧ st'.env = st.env ∧ st'.pending = st.pending) ∧
      (∀ y, (st.env.freeVars st.subst).Has y → fixed.Has y) ∧
      ∀ ob ∈ st.obligations, ob ∈ inner ∨ ob ∈ st'.obligations := by
  simp only [splitObligations, takeObligations, defer, bind_eq_ok, get_eq_ok, modifyGet_eq_ok,
    modify_eq_ok, pure_eq_ok, Prod.mk.injEq] at h
  obtain ⟨_, _, ⟨rfl, rfl⟩, _, _, ⟨rfl, rfl⟩, _, _, rfl, ⟨rfl, rfl⟩, rfl⟩ := h
  refine ⟨⟨rfl, rfl, rfl, rfl⟩, fun y hy => ?_, fun ob hob => ?_⟩
  · rcases y with v | e
    · exact Sorted.mem_ofList.mpr (mem_append_left _ hy)
    · exact hy
  · rw [partition_eq_filter_filter, mem_filter, nil_append, mem_filter]
    simp only [hob, true_and, Function.comp_apply, Bool.not_eq_true']
    exact Bool.eq_false_or_eq_true _

theorem bindGeneralized_ok {span : Span} {u : Unit}
    (h : bindGeneralized span name t st = .ok u st') :
    ∃ σ fixed tails, σ.Generalizes t st.subst fixed tails ∧
      (∀ y, (st.env.freeVars st.subst).Has y → fixed.Has y) ∧
      st'.subst = st.subst ∧ st'.fresh = st.fresh ∧ st'.env = st.env.bind name σ ∧
      st'.pending = st.pending := by
  simp only [bindGeneralized, bind_eq_ok, get_eq_ok] at h
  obtain ⟨⟨fixed, inner⟩, st₁, hsplit, _, _, ⟨rfl, rfl⟩, h⟩ := h
  obtain ⟨⟨hsubst, hfresh, henv, hpending⟩, hfixed, -⟩ := splitObligations_ok hsplit
  rcases hgen : generalize t inner st₁.subst fixed st₁.names with e | ⟨σ, deferred⟩
  · simp only [hgen, throw_eq_ok] at h
  · simp only [hgen, bind_eq_ok, defer, record, bind, modify_eq_ok] at h
    obtain ⟨_, _, rfl, _, _, rfl, rfl⟩ := h
    obtain ⟨tails, hσ⟩ := generalize_ok hgen
    rw [hsubst] at hσ
    exact ⟨σ, fixed, tails, hσ, hfixed, (InferState.subst_note _ _).trans hsubst,
      (InferState.fresh_note _ _).trans hfresh,
      congrArg (Env.bind · name σ) ((InferState.env_note _ _).trans henv),
      (InferState.pending_note _ _).trans hpending⟩

/-- Every instance of a generalised type is what the type stands for under a valuation with the same
context. -/
theorem exists_valuation_of_instances (hst : st.Valid reg) (happart : st.Apart I)
    (hσ : σ.Generalizes t st.subst fixed tails)
    (hfixed : ∀ y, (st.env.freeVars st.subst).Has y → fixed.Has y) {U : Valuation}
    (hU : U.Absorbs st.subst) {t' : Ty} (ht' : (σ.under U).instances t') :
    ∃ U' : Valuation, U'.Absorbs st.subst ∧ t' = t.under U' ∧ st.env.under U' = st.env.under U := by
  have hs := hst.subst.acyclic
  obtain ⟨U', hU', rfl, hagree⟩ :=
    hσ.exists_valuation hs hU (Scheme.hasInstance_of_instances ht')
  refine ⟨U', hU', rfl, Env.under_congr fun name τ hτ x hx => hagree x fun y hy => ?_⟩
  rcases Env.get?_eq_some hτ with hlocal | hglobal
  · exact hfixed y (has_freeVars_of_apart hs happart hlocal hx hy)
  · exact (hst.env.closed hglobal x hx).elim

/-- The variables that stand for nothing quantified by a scheme. -/
def unquantified (s : Subst) (σ : Scheme) : Region :=
  fun x => ∀ y ∈ s.valuation.image x, y ∉ σ.quantified

/-- After a local definition, inference stays among the variables that stand for nothing its scheme
quantifies. -/
theorem inside_unquantified (hst : st.Valid reg) (ht : t.Usable st.fresh)
    (hσ : σ.Generalizes t st.subst fixed tails) : st.Inside (unquantified st.subst σ) where
  upcoming {x} hx y hy := by
    have hunbound : ¬ st.subst.Binds x := fun h => hst.subst.unmentioned hx (.inl h)
    rw [Subst.image_of_not_binds hunbound, mem_singleton] at hy
    exact fun hq => (hσ.usable hst.subst ht).quantified hq (hy ▸ hx)
  closed _ _ hx hxy z hz := hx z (hst.subst.acyclic.image_of_leadsTo hxy hz)

/-- The environment with the new scheme is over this region, unlike the quantified variables. -/
theorem over_unquantified (name : String) (hs : st.subst.Acyclic) (happart : st.Apart I)
    (hσ : σ.Generalizes t st.subst fixed tails)
    (hfixed : ∀ y, (st.env.freeVars st.subst).Has y → fixed.Has y) :
    (st.env.bind name σ).Over (unquantified st.subst σ) ∧
      ∀ x ∈ σ.quantified, ¬ unquantified st.subst σ x := by
  have hself {x : Var} (hx : x ∈ σ.type.occurrences) : st.subst.valuation.image x = [x] :=
    Subst.image_of_not_binds (hσ.not_binds hs hx)
  constructor
  · -- what the free variables stand for is fixed, and nothing fixed is quantified
    intro τ hτ x hx y hy hq
    rcases Env.mem_locals_bind hτ with rfl | hτ
    · rw [hself hx.1, mem_singleton] at hy
      exact hx.2 (hy ▸ hq)
    · exact ((hσ.quantified y).mp hq).2 (hfixed y (has_freeVars_of_apart hs happart hτ hx hy))
  · intro x hx hP
    have hmem : x ∈ st.subst.valuation.image x := by
      rw [hself ((hσ.quantified x).mp hx).1]
      exact .head _
    exact hP x hmem hx

/-- Local schemes stay apart when a generalised type is bound. -/
theorem apart_of_generalizes (hst : st.Valid reg) (ht : t.Usable st.fresh)
    (happart : st.Apart t.Over) (hσ : σ.Generalizes t st.subst fixed tails)
    (hfixed : ∀ y, (st.env.freeVars st.subst).Has y → fixed.Has y)
    (hsubst : st'.subst = st.subst) (hfresh : st'.fresh = st.fresh)
    (henv : st'.env = st.env.bind name σ) : st'.Apart fun _ => True := by
  have hs := hst.subst.acyclic
  intro τ hτ
  rw [henv] at hτ ⊢
  -- the new scheme gets a region of its own, the old ones keep theirs
  rcases Env.mem_locals_bind hτ with rfl | hτ
  · obtain ⟨hover, hq⟩ := over_unquantified name hs happart hσ hfixed
    exact ⟨_, (inside_unquantified hst ht hσ).congr hsubst hfresh, hover, trivial, hq⟩
  · obtain ⟨P, hP, hover, htP, hq⟩ := happart τ hτ
    exact ⟨P, hP.congr hsubst hfresh, hover.bind fun x hx => hσ.type_over hs hP.closed htP x hx.1,
      trivial, hq⟩

end Infer

/-! ## Requirements -/

namespace Generalize

variable {tails : List EffectVar} {e : EffectVar} {t : Ty}

private theorem binds_foldl_bindEffect {s : Subst} (h : e ∈ tails ∨ s.Binds (.effect e)) :
    (tails.foldl (fun s e => s.bindEffect e .pure) s).Binds (.effect e) := by
  induction tails generalizing s with
  | nil => exact h.resolve_left not_mem_nil
  | cons e' tails ih =>
    refine ih ?_
    by_cases heq : e = e'
    · exact .inr (by simp [Subst.Binds, Subst.bindEffect, heq])
    · exact h.imp (fun he => (mem_cons.mp he).resolve_left heq)
        fun hs => by simpa [Subst.Binds, Subst.bindEffect, heq] using hs

theorem binds_closing (h : e ∈ tails) : (closing tails).Binds (.effect e) :=
  binds_foldl_bindEffect (.inl h)

/-- Closing tails removes them and keeps all other variables. -/
theorem mem_occurrences_closing_iff {x : Var} :
    x ∈ ((closing tails).apply t).occurrences ↔
      x ∈ t.occurrences ∧ ∀ e ∈ tails, x ≠ .effect e := by
  rw [Subst.mem_occurrences_apply]
  constructor
  · rintro ⟨y, hy, hx⟩
    obtain rfl := image_closing hx
    refine ⟨hy, ?_⟩
    rintro e he rfl
    exact (acyclic_closing.mem_image hx).2 (binds_closing he)
  · rintro ⟨hx, hopen⟩
    refine ⟨x, hx, ?_⟩
    rw [Subst.image_of_not_binds (not_binds_closing hopen)]
    exact .head _

theorem mem_typeVars_closing {v : TypeVar} :
    v ∈ ((closing tails).apply t).typeVars ↔ .type v ∈ t.occurrences := by
  simp [Ty.mem_typeVars, mem_occurrences_closing_iff]

theorem mem_occurrences_of_mem_resultRows {r : Row} (hr : r ∈ t.resultRows) (he : r.tail = some e) :
    .effect e ∈ t.occurrences := by
  induction t with
  | fn params result effects _ ih =>
    rw [Ty.mem_occurrences_fn]
    rcases mem_cons.mp hr with rfl | hr
    · exact .inr (.inr ⟨e, he, rfl⟩)
    · exact .inr (.inl (ih hr))
  | prim | var | named | app | tuple => cases hr

/-- Only tails of the type are closed. -/
theorem mem_occurrences_of_mem_singletonTails {residual : List Obligation} {fixed : FixedVars}
    (h : e ∈ singletonTails t residual fixed) : .effect e ∈ t.occurrences := by
  obtain ⟨r, hr, he⟩ := mem_filterMap.mp (mem_filter.mp h).1
  exact mem_occurrences_of_mem_resultRows hr he

end Generalize

/-- The obligation becomes a requirement: it has a type variable that is not fixed. -/
def Obligation.IsRequired (ob : Obligation) (s : Subst) (fixed : FixedVars) : Prop :=
  ∃ v, .type v ∈ (s.apply ob.type).occurrences ∧ v ∉ fixed.types

/-- Every effect variable of a requirement occurs in the type or is fixed. -/
def EffectsDetermined (t : Ty) (residual : List Obligation) (s : Subst) (fixed : FixedVars) :
    Prop :=
  ∀ ob ∈ residual, ob.IsRequired s fixed → ∀ e, .effect e ∈ (s.apply ob.type).occurrences →
    .effect e ∈ (s.apply t).occurrences ∨ e ∈ fixed.effects

namespace Generalize

variable {tails : List EffectVar} {s : Subst} {fixed : FixedVars} {ob : Obligation}

theorem isFixed_eq_false_iff :
    isFixed fixed ((ob.apply s).apply (closing tails)) = false ↔ ob.IsRequired s fixed := by
  rw [← Bool.not_eq_true, isFixed, all_eq_true]
  simp [Obligation.apply, Obligation.IsRequired, mem_typeVars_closing]

/-- An obligation that is not ambiguous has no type variables but those of the type and fixed
ones. -/
theorem isAmbiguous_eq_false_iff {t : Ty} :
    isAmbiguous ((closing tails).apply t) fixed ((ob.apply s).apply (closing tails)) = false ↔
      ∀ v, .type v ∈ (s.apply ob.type).occurrences → .type v ∈ t.occurrences ∨ v ∈ fixed.types := by
  simp [isAmbiguous, Obligation.apply, mem_typeVars_closing, Decidable.or_iff_not_imp_left]

end Generalize

open Generalize in
/-- What generalisation does when it succeeds. -/
theorem generalize_spec (h : generalize t residual s fixed hints = .ok (σ, deferred)) :
    ∃ tails, (∀ e ∈ tails, .effect e ∈ (s.apply t).occurrences) ∧
      σ.type = (closing tails).apply (s.apply t) ∧
      (∀ g, g ∈ σ.givens ↔ ∃ ob ∈ residual, ob.IsRequired s fixed ∧
        g = ⟨ob.traitName, (closing tails).apply (s.apply ob.type)⟩) ∧
      ∀ ob ∈ residual, ∀ v, .type v ∈ (s.apply ob.type).occurrences →
        .type v ∈ (s.apply t).occurrences ∨ v ∈ fixed.types := by
  simp only [generalize] at h
  split at h
  · cases h
  · rename_i hfind
    injection h with h
    obtain ⟨rfl, -⟩ := Prod.mk.inj h
    refine ⟨singletonTails (s.apply t) residual fixed,
      fun e he => mem_occurrences_of_mem_singletonTails he, rfl, fun g => ?_, fun ob hob v hv => ?_⟩
    · simp only [mem_groupByTrait, mem_map, mem_filter, Bool.not_eq_true']
      constructor
      · rintro ⟨_, ⟨⟨ob, hob, rfl⟩, hfixed⟩, rfl⟩
        exact ⟨ob, hob, isFixed_eq_false_iff.mp hfixed, rfl⟩
      · rintro ⟨ob, hob, hrequired, rfl⟩
        exact ⟨_, ⟨⟨ob, hob, rfl⟩, isFixed_eq_false_iff.mpr hrequired⟩, rfl⟩
    · have hclear := find?_eq_none.mp hfind _ (mem_map_of_mem hob)
      exact isAmbiguous_eq_false_iff.mp (Bool.not_eq_true _ ▸ hclear) v hv

open Generalize in
theorem type_of_generalize (h : generalize t residual s fixed hints = .ok (σ, deferred)) :
    σ.type = (s.apply t).under (closing (singletonTails (s.apply t) residual fixed)).valuation := by
  simp only [generalize] at h
  split at h
  · cases h
  · injection h with h
    obtain ⟨rfl, -⟩ := Prod.mk.inj h
    rfl

section Quantified

variable {t : Ty} {residual deferred : List Obligation} {s : Subst} {fixed : FixedVars}
  {hints : VarNames} {σ : Scheme} (h : generalize t residual s fixed hints = .ok (σ, deferred))

include h

theorem mem_quantified_of_generalize (x : Var) :
    x ∈ σ.quantified ↔ x ∈ σ.type.occurrences ∧ ¬ fixed.Has x := by
  obtain ⟨_, hσ⟩ := generalize_ok h
  exact hσ.quantified x

/-- The variables of a requirement that are quantified or fixed are those of the type. -/
theorem mem_quantified_or_fixed_iff {g : Given} (hg : g ∈ σ.givens) {x : Var}
    (hx : x ∈ g.type.occurrences) :
    x ∈ σ.quantified ∨ fixed.Has x ↔ x ∈ (s.apply t).occurrences ∨ fixed.Has x := by
  obtain ⟨tails, -, htype, hgivens, -⟩ := generalize_spec h
  obtain ⟨ob, -, -, rfl⟩ := (hgivens g).mp hg
  obtain ⟨-, hopen⟩ := Generalize.mem_occurrences_closing_iff.mp hx
  rw [mem_quantified_of_generalize h, htype, Generalize.mem_occurrences_closing_iff]
  exact ⟨Or.imp_left fun hq => hq.1.1, fun hx => by tauto⟩

/-- The type variables of requirements are quantified or fixed. -/
theorem mem_quantified_of_generalize_type {g : Given} (hg : g ∈ σ.givens) {v : TypeVar}
    (hv : .type v ∈ g.type.occurrences) : .type v ∈ σ.quantified ∨ fixed.Has (.type v) := by
  rw [mem_quantified_or_fixed_iff h hg hv]
  obtain ⟨tails, -, -, hgivens, hdetermined⟩ := generalize_spec h
  obtain ⟨ob, hob, -, rfl⟩ := (hgivens g).mp hg
  exact hdetermined ob hob v (Generalize.mem_occurrences_closing hv)

/-- The scheme binds all variables that are not fixed if the effect variables of its requirements
are determined by the type. -/
theorem binds_givens_iff_effectsDetermined :
    (∀ g ∈ σ.givens, ∀ x ∈ g.type.occurrences, x ∈ σ.quantified ∨ fixed.Has x) ↔
      EffectsDetermined t residual s fixed := by
  obtain ⟨tails, htails, -, hgivens, -⟩ := generalize_spec h
  constructor
  · intro hbound ob hob hrequired e he
    by_cases hclosed : e ∈ tails
    · exact .inl (htails e hclosed)
    · -- the variable is still there in the requirement
      have hg := (hgivens _).mpr ⟨ob, hob, hrequired, rfl⟩
      have hx : .effect e ∈ ((Generalize.closing tails).apply (s.apply ob.type)).occurrences :=
        Generalize.mem_occurrences_closing_iff.mpr
          ⟨he, fun f hf heq => hclosed (by cases heq; exact hf)⟩
      exact (mem_quantified_or_fixed_iff h hg hx).mp (hbound _ hg _ hx)
  · intro hdetermined g hg x hx
    rcases x with v | e
    · exact mem_quantified_of_generalize_type h hg hx
    · obtain ⟨ob, hob, hrequired, rfl⟩ := (hgivens g).mp hg
      exact (mem_quantified_or_fixed_iff h hg hx).mpr
        (hdetermined ob hob hrequired e (Generalize.mem_occurrences_closing hx))

end Quantified

/-- The scheme binds its variables, apart from effect variables that occur only in requirements. -/
structure Scheme.BindsAll (σ : Scheme) : Prop where
  type : ∀ x ∈ σ.type.occurrences, x ∈ σ.quantified
  givens : ∀ g ∈ σ.givens, ∀ x ∈ g.type.occurrences,
    x ∈ σ.quantified ↔ ∀ e, x = .effect e → x ∈ σ.type.occurrences

theorem FixedVars.not_has_empty (x : Var) : ¬ FixedVars.Has {} x := by
  cases x <;> exact not_mem_nil

theorem Scheme.bindsAll_of_generalize (h : generalize t residual s {} hints = .ok (σ, deferred)) :
    σ.BindsAll := by
  have hquantified (x : Var) : x ∈ σ.quantified ↔ x ∈ σ.type.occurrences := by
    simp [mem_quantified_of_generalize h, FixedVars.not_has_empty]
  refine ⟨fun x hx => (hquantified x).mpr hx, fun g hg x hx => ?_⟩
  rcases x with v | e
  · have hv := (mem_quantified_of_generalize_type h hg hx).resolve_right (FixedVars.not_has_empty _)
    exact iff_of_true hv fun e he => by cases he
  · rw [hquantified]
    exact ⟨fun he _ _ => he, fun he => he e rfl⟩

end RowTyping
