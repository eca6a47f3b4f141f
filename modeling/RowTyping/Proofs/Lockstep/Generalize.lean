import RowTyping.Proofs.Infer.Generalize
import RowTyping.Proofs.Lockstep.Operations

/-!
# Generalisation in lockstep

Matching types with matching obligations are generalised to matching schemes, if the same variables
are fixed on both sides (`generalize_lockstep`).
-/

namespace RowTyping

open List

section Lists

variable {α β : Type} {R : α → β → Prop} {p : α → Bool} {q : β → Bool}

section

variable {as : List α} {bs : List β} (h : Forall₂ R as bs)
  (hpq : ∀ {a b}, R a b → p a = q b)
include h hpq

theorem any_eq_of_forall₂ : as.any p = bs.any q := by
  induction h with
  | nil => rfl
  | cons hab _ ih => rw [any_cons, any_cons, hpq hab, ih]

theorem rel_find? : Option.Rel R (as.find? p) (bs.find? q) := by
  induction h with
  | nil => exact .none
  | cons hab _ ih =>
    rw [find?_cons, find?_cons, hpq hab]
    split
    · exact .some hab
    · exact ih

theorem forall₂_filter : Forall₂ R (as.filter p) (bs.filter q) :=
  rel_filter (fun a b hab => by simp only [hpq hab]) h

end

theorem any_ofList {γ : Type} [Ord γ] [Std.LawfulEqOrd γ] (as : List γ) (p : γ → Bool) :
    (Sorted.ofList as).any p = as.any p := by
  rw [Bool.eq_iff_iff, any_eq_true, any_eq_true]
  simp only [Sorted.mem_ofList]

end Lists

namespace Matching

variable {ρ : Matching}

/-! ## Type variables -/

theorem forall₂_filterMap_type? {xs xs' : List Var} (h : Forall₂ ρ.Vars xs xs') :
    Forall₂ ρ.types (xs.filterMap Var.type?) (xs'.filterMap Var.type?) := by
  refine rel_filterMap (fun x x' hx => ?_) h
  cases hx with
  | type hv => exact .some hv
  | effect => exact .none

theorem forall₂_filterMap_effect? {xs xs' : List Var} (h : Forall₂ ρ.Vars xs xs') :
    Forall₂ ρ.effects (xs.filterMap Var.effect?) (xs'.filterMap Var.effect?) := by
  refine rel_filterMap (fun x x' hx => ?_) h
  cases hx with
  | type => exact .none
  | effect he => exact .some he

variable {t t' : Ty} {p q : TypeVar → Bool}

/-- Matching types have type variables with the same properties. -/
theorem Types.any_typeVars (h : ρ.Types t t') (hpq : ∀ {v v'}, ρ.types v v' → p v = q v') :
    t.typeVars.any p = t'.typeVars.any q := by
  rw [Ty.typeVars, Ty.typeVars, any_ofList, any_ofList]
  exact any_eq_of_forall₂ (forall₂_filterMap_type? h.occurrences) hpq

theorem Types.all_typeVars (h : ρ.Types t t') (hpq : ∀ {v v'}, ρ.types v v' → p v = q v') :
    t.typeVars.all p = t'.typeVars.all q := by
  rw [all_eq_not_any_not, all_eq_not_any_not,
    h.any_typeVars fun hv => congrArg (!·) (hpq hv)]

theorem Types.mem_typeVars_iff (h : ρ.Types t t') {v v' : TypeVar} (hv : ρ.types v v') :
    v ∈ t.typeVars ↔ v' ∈ t'.typeVars := by
  rw [Ty.mem_typeVars, Ty.mem_typeVars]
  exact h.mem_occurrences_iff (.type hv)

theorem Types.isEmpty_typeVars (h : ρ.Types t t') : t.typeVars.isEmpty = t'.typeVars.isEmpty := by
  have hany := h.any_typeVars (p := fun _ => true) (q := fun _ => true) fun _ => rfl
  cases ht : t.typeVars <;> cases ht' : t'.typeVars <;> simp [ht, ht'] at hany ⊢

theorem Types.vars (h : ρ.Types t t') : Forall₂ ρ.Vars t.vars t'.vars :=
  forall₂_distinct ρ.biUnique_vars h.occurrences

/-! ## Closing tails -/

/-- The same variables are fixed, as far as they match. -/
structure Fixed (ρ : Matching) (fixed fixed' : FixedVars) : Prop where
  types : ∀ {v v'}, ρ.types v v' → (v ∈ fixed.types ↔ v' ∈ fixed'.types)
  effects : ∀ {e e'}, ρ.effects e e' → (e ∈ fixed.effects ↔ e' ∈ fixed'.effects)

theorem Types.resultRows (h : ρ.Types t t') : Forall₂ ρ.Rows t.resultRows t'.resultRows := by
  induction t generalizing t' with
  | fn params result effects _ ih =>
    cases h with
    | fn _ hresult heffects => exact .cons heffects (ih hresult)
  | prim | var | named | app | tuple =>
    cases h
    exact .nil

variable {residual residual' : List Obligation} {fixed fixed' : FixedVars} {ob ob' : Obligation}

theorem Types.effectCount (h : ρ.Types t t')
    (hresidual : Forall₂ ρ.Obligations residual residual') {e e' : EffectVar}
    (he : ρ.effects e e') :
    Generalize.effectCount t residual e = Generalize.effectCount t' residual' e' := by
  have hobs : Forall₂ ρ.Vars (residual.flatMap (·.type.occurrences))
      (residual'.flatMap (·.type.occurrences)) :=
    rel_flatMap hresidual fun _ _ hob => hob.type.occurrences
  rw [Generalize.effectCount, Generalize.effectCount, Ty.effectCount, Ty.effectCount,
    count_eq_of_forall₂ ρ.biUnique_vars h.occurrences (.effect he),
    count_eq_of_forall₂ ρ.biUnique_vars hobs (.effect he)]

/-- The same tails are closed. -/
theorem Types.singletonTails (h : ρ.Types t t')
    (hresidual : Forall₂ ρ.Obligations residual residual') (hfixed : ρ.Fixed fixed fixed') :
    Forall₂ ρ.effects (Generalize.singletonTails t residual fixed)
      (Generalize.singletonTails t' residual' fixed') := by
  refine forall₂_filter (rel_filterMap (fun _ _ hr => Rows.tail hr) h.resultRows) fun he => ?_
  rw [h.effectCount hresidual he]
  simp [hfixed.effects he]

theorem valuations_closing {tails tails' : List EffectVar} (h : Forall₂ ρ.effects tails tails') :
    ρ.Valuations ρ (Generalize.closing tails).valuation (Generalize.closing tails').valuation := by
  have hfold {s s' : Subst} (hs : ρ.Substs s s' ∧ s.SameSize s') :
      ρ.Substs (tails.foldl (fun s e => s.bindEffect e .pure) s)
          (tails'.foldl (fun s e => s.bindEffect e .pure) s') ∧
        (tails.foldl (fun s e => s.bindEffect e .pure) s).SameSize
          (tails'.foldl (fun s e => s.bindEffect e .pure) s') := by
    induction h generalizing s s' with
    | nil => exact hs
    | cons he _ ih =>
      exact ih ⟨hs.1.bindEffect he (.closed []), hs.1.sameSize_bindEffect hs.2 he _ _⟩
  obtain ⟨hsubsts, hsize⟩ := hfold ⟨substs_empty, Subst.sameSize_empty⟩
  exact hsubsts.valuations_of_sameSize hsize

/-! ## Obligations and requirements -/

theorem Obligations.apply {s s' : Subst} (hs : ρ.Valuations ρ s.valuation s'.valuation)
    (h : ρ.Obligations ob ob') :
    ρ.Obligations (ob.apply s) (ob'.apply s') :=
  ⟨h.traitName, h.type.under hs, h.origin⟩

theorem Obligations.toGiven (h : ρ.Obligations ob ob') : ρ.Givens ob.toGiven ob'.toGiven :=
  ⟨h.traitName, h.type⟩

theorem Obligations.isAmbiguous (ht : ρ.Types t t') (hfixed : ρ.Fixed fixed fixed')
    (h : ρ.Obligations ob ob') :
    Generalize.isAmbiguous t fixed ob = Generalize.isAmbiguous t' fixed' ob' := by
  refine h.type.any_typeVars fun hv => ?_
  simp [ht.mem_typeVars_iff hv, hfixed.types hv]

theorem Obligations.isFixed (hfixed : ρ.Fixed fixed fixed') (h : ρ.Obligations ob ob') :
    Generalize.isFixed fixed ob = Generalize.isFixed fixed' ob' := by
  refine h.type.all_typeVars fun hv => ?_
  simp [hfixed.types hv]

theorem Givens.eq_iff {g g' h h' : Given} (hg : ρ.Givens g g') (hh : ρ.Givens h h') :
    g = h ↔ g' = h' := by
  obtain ⟨name, t⟩ := g
  obtain ⟨name', t'⟩ := g'
  obtain ⟨other, u⟩ := h
  obtain ⟨other', u'⟩ := h'
  obtain ⟨rfl, ht⟩ := hg
  obtain ⟨rfl, hu⟩ := hh
  rw [Given.mk.injEq, Given.mk.injEq, ht.eq_iff hu]

theorem biUnique_givens (ρ : Matching) : Relator.BiUnique ρ.Givens :=
  ⟨fun _ _ _ hg hh => (hg.eq_iff hh).mpr rfl, fun _ _ _ hg hh => (hg.eq_iff hh).mp rfl⟩

theorem givens_groupByTrait {givens givens' : List Given} (h : Forall₂ ρ.Givens givens givens') :
    Forall₂ ρ.Givens (groupByTrait givens) (groupByTrait givens') := by
  have hdistinct := forall₂_distinct ρ.biUnique_givens h
  have hnames : givens.map (·.traitName) = givens'.map (·.traitName) := by
    rw [← forall₂_eq_eq_eq, forall₂_map_left_iff, forall₂_map_right_iff]
    exact h.imp fun _ _ hg => hg.traitName
  simp only [groupByTrait_eq, hnames]
  refine rel_flatMap (R := Eq) (forall₂_refl _) fun name _ heq => ?_
  subst heq
  exact forall₂_filter hdistinct fun hg => by rw [hg.traitName]

end Matching

open Matching in
/-- Matching types are generalised alike. -/
theorem generalize_lockstep {ρ : Matching} (hρ : ρ.Increasing) {t t' : Ty}
    {residual residual' : List Obligation} {s s' : Subst} {fixed fixed' : FixedVars}
    {hints hints' : VarNames} (ht : ρ.Types t t')
    (hresidual : Forall₂ ρ.Obligations residual residual')
    (hs : ρ.Valuations ρ s.valuation s'.valuation) (hfixed : ρ.Fixed fixed fixed')
    (hhints : ρ.Names hints hints') :
    ExceptRel ρ.Errors (fun r r' => ρ.Schemes r.1 r'.1 ∧ Forall₂ ρ.Obligations r.2 r'.2)
      (generalize t residual s fixed hints) (generalize t' residual' s' fixed' hints') := by
  have hresolved : ρ.Types (s.apply t) (s'.apply t') := ht.under hs
  have htails := valuations_closing (hresolved.singletonTails hresidual hfixed)
  have htype := hresolved.under htails
  have hobs : Forall₂ ρ.Obligations
      (residual.map fun ob => (ob.apply s).apply
        (Generalize.closing (Generalize.singletonTails (s.apply t) residual fixed)))
      (residual'.map fun ob => (ob.apply s').apply
        (Generalize.closing (Generalize.singletonTails (s'.apply t') residual' fixed'))) := by
    rw [forall₂_map_left_iff, forall₂_map_right_iff]
    exact hresidual.imp fun _ _ hob => (hob.apply hs).apply htails
  rw [← Subst.apply_eq_under, ← Subst.apply_eq_under] at htype
  simp only [generalize]
  generalize (Generalize.closing (Generalize.singletonTails (s.apply t) residual fixed)).apply
    (s.apply t) = u at htype ⊢
  generalize (Generalize.closing (Generalize.singletonTails (s'.apply t') residual' fixed')).apply
    (s'.apply t') = u' at htype ⊢
  generalize (residual.map fun ob => (ob.apply s).apply
    (Generalize.closing (Generalize.singletonTails (s.apply t) residual fixed))) = obs at hobs ⊢
  generalize (residual'.map fun ob => (ob.apply s').apply
    (Generalize.closing (Generalize.singletonTails (s'.apply t') residual' fixed'))) =
      obs' at hobs ⊢
  have hambiguous := rel_find? hobs fun hob => hob.isAmbiguous htype hfixed
  generalize obs.find? (Generalize.isAmbiguous u fixed) = found at hambiguous ⊢
  generalize obs'.find? (Generalize.isAmbiguous u' fixed') = found' at hambiguous ⊢
  cases hambiguous with
  | some hob =>
    dsimp only
    rw [hob.traitName, hob.origin]
    exact .error (.ambiguousTrait _ hob.type _)
  | none =>
    have htypeVars := forall₂_filter (forall₂_filterMap_type? htype.vars) fun {v v'} hv =>
      show (!fixed.types.contains v) = !fixed'.types.contains v' by simp [hfixed.types hv]
    have heffectVars := forall₂_filter (forall₂_filterMap_effect? htype.vars) fun {e e'} he =>
      show (!fixed.effects.contains e) = !fixed'.effects.contains e' by simp [hfixed.effects he]
    refine .ok ⟨⟨htypeVars, heffectVars, givens_groupByTrait ?_,
      names_transferNames hρ hhints hs htypeVars heffectVars, htype⟩,
      forall₂_filter hobs fun hob => hob.isFixed hfixed⟩
    rw [forall₂_map_left_iff, forall₂_map_right_iff]
    exact (forall₂_filter hobs fun hob => by rw [hob.isFixed hfixed]).imp fun _ _ hob => hob.toGiven

end RowTyping
