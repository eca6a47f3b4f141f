import RowTyping.Proofs.Infer.Operations
import RowTyping.Proofs.Infer.Stepwise

/-!
# Containment of rows

Subeffecting opens a closed row and makes it equal to the larger one. Rows with different tails
always meet: each tail goes on with the labels that its row lacks and with a common tail
(`Unify.RowStep.merges`). Rows with one tail have to be equal. So a closed row is accepted wherever
it is contained and at most gives the tail of the larger row another name, but an open row is
accepted by a row with the same tail only if it has all its labels (`Infer.subeffect_contained`).
-/

namespace RowTyping

/-- A row that a substitution does not change any more. -/
structure Row.Resolved (r : Row) (s : Subst) (f : Fresh) : Prop where
  usable : r.Usable f
  unbound : ∀ e, r.tail = some e → ¬ s.Binds (.effect e)

/-- The effect variable has been drawn and is not bound. -/
def Subst.Undetermined (s : Subst) (f : Fresh) (e : EffectVar) : Prop :=
  ¬ s.Binds (.effect e) ∧ ¬ f.Upcoming (.effect e)

section Resolved

variable {r : Row} {s : Subst} {f : Fresh}

theorem Subst.Valid.resolved (hs : s.Valid f) (hr : r.Usable f) : (s.applyRow r).Resolved s f := by
  refine ⟨hs.applyRow_usable hr, fun e he => ?_⟩
  rw [Subst.applyRow_eq_under, Row.tail_under, Option.bind_eq_some_iff] at he
  obtain ⟨e₀, -, he⟩ := he
  exact (hs.acyclic.mem_image (x := .effect e₀) (by simp [Valuation.image, he])).2

theorem Subst.effects_of_not_binds {e : EffectVar} (h : ¬ s.Binds (.effect e)) :
    s.valuation.effects e = none :=
  Subst.effects_of_unbound (by simpa [Subst.Binds] using h)

theorem Row.Resolved.applyRow_eq (h : r.Resolved s f) : s.applyRow r = r := by
  calc s.applyRow r = r.under s.valuation := rfl
    _ = r.under .self := Row.under_congr fun e he => Subst.effects_of_not_binds (h.unbound e he)
    _ = r := r.under_self

end Resolved

namespace Unify

variable {a b : Row} {s s' : Subst} {f f' : Fresh} {V : Valuation} {t : EffectVar}

/-- The tail of the first row stands for the labels of the second one that the first one lacks, and
for a further tail. -/
def Completes (V : Valuation) (a b : Row) (t : EffectVar) : Prop :=
  ∀ r, a.tail = some r → (V.row r).tail = some t ∧
    ∀ l, l ∈ (V.row r).labels ↔ l ∈ b.labels ∧ l ∉ a.labels

/-- The tails of two rows go on with a common tail, and no other tail is bound. -/
structure Merges (a b : Row) (s s' : Subst) (f : Fresh) (t : EffectVar) : Prop where
  left : Completes s'.valuation a b t
  right : Completes s'.valuation b a t
  tail : a.tail = some t ∨ b.tail = some t ∨ f.Upcoming (.effect t)
  others : ∀ e, s.Undetermined f e → a.tail ≠ some e → b.tail ≠ some e → ¬ s'.Binds (.effect e)

theorem Merges.symm (h : Merges b a s s' f t) : Merges a b s s' f t :=
  ⟨h.right, h.left, or_left_comm.mp h.tail, fun e he ha hb => h.others e he hb ha⟩

/-- A tail that is bound to labels and an unbound tail. -/
theorem completes_of_bound {r : EffectVar} (row : Row) (hs' : s'.Acyclic) (hsorted : s'.RowsSorted)
    (ha : a.tail = some r) (hr : s'.effects.get? r = some row) (htail : row.tail = some t)
    (ht : ¬ s'.Binds (.effect t)) (hlabels : ∀ l, l ∈ row.labels ↔ l ∈ b.labels ∧ l ∉ a.labels) :
    Completes s'.valuation a b t := by
  intro r' hr'
  obtain rfl : r = r' := Option.some.inj (ha.symm.trans hr')
  have hself := Valuation.row_of_none (Subst.effects_of_not_binds ht)
  rw [(hs'.models hsorted).effects hr]
  refine ⟨by rw [Row.tail_under_of_some htail, hself]; rfl, fun l => ?_⟩
  rw [Row.mem_labels_under_of_some htail, hself, ← hlabels l]
  simp [Row.ofVar]

/-- An unbound tail goes on as it is if its row lacks nothing. -/
theorem completes_of_unbound (ha : a.tail = some t) (ht : ¬ s'.Binds (.effect t))
    (hlabels : ∀ l ∈ b.labels, l ∈ a.labels) : Completes s'.valuation a b t := by
  intro r hr
  obtain rfl : t = r := Option.some.inj (ha.symm.trans hr)
  rw [Valuation.row_of_none (Subst.effects_of_not_binds ht)]
  exact ⟨rfl, fun l => by simpa [Row.ofVar] using hlabels l⟩

/-- Rows with different tails meet in a common tail. -/
theorem RowStep.merges (h : RowStep a b s f s' f') (hs : s.Valid f) (hs' : s'.Acyclic)
    (hsorted : s'.RowsSorted) (ha : a.Resolved s f) (hb : b.Resolved s f)
    (haopen : a.tail ≠ none) (hbopen : b.tail ≠ none) (hne : a.tail ≠ b.tail) :
    ∃ t, Merges a b s s' f t := by
  induction h with
  | refl => exact (hne rfl).elim
  | closed hnone => exact (haopen hnone).elim
  | close _ hnone => exact (hbopen hnone).elim
  | @join a b s f r q hr hq hrq hab hba =>
    have hbinds (e : EffectVar) (he : e ≠ r) (hunbound : ¬ s.Binds (.effect e)) :
        ¬ (s.bindEffect r (.ofVar q)).Binds (.effect e) := by
      simpa [Subst.binds_bindEffect, he] using hunbound
    have hqunbound := hbinds q hrq.symm (hb.unbound q hq)
    rw [Row.labelsNotIn_eq_nil hb.usable.sorted] at hab
    rw [Row.labelsNotIn_eq_nil ha.usable.sorted] at hba
    refine ⟨q, completes_of_bound (.ofVar q) hs' hsorted hr
      (by simp [Subst.bindEffect]) rfl hqunbound
        fun l => ?_,
      completes_of_unbound hq hqunbound hab, .inr (.inl hq), fun e he hae _ => hbinds e ?_ he.1⟩
    · simpa [Row.ofVar] using hba l
    · rintro rfl
      exact hae hr
  | @share a b s f r q hr hq hrq =>
    -- the drawn tail is neither bound nor one of the two tails
    have hz := hs.unmentioned f.upcoming_effectVar
    have hzr : f.effectVar.1 ≠ r := fun heq => ha.usable.drawn r hr (heq ▸ f.upcoming_effectVar)
    have hzq : f.effectVar.1 ≠ q := fun heq => hb.usable.drawn q hq (heq ▸ f.upcoming_effectVar)
    have hbinds (e : EffectVar) (her : e ≠ r) (heq : e ≠ q) (hunbound : ¬ s.Binds (.effect e)) :
        ¬ ((s.bindEffect r (.extensible (b.labelsNotIn a) f.effectVar.1)).bindEffect q
          (.extensible (a.labelsNotIn b) f.effectVar.1)).Binds (.effect e) := by
      simpa [Subst.binds_bindEffect, her, heq] using hunbound
    have hzunbound := hbinds _ hzr hzq fun h => hz (.inl h)
    refine ⟨f.effectVar.1,
      completes_of_bound (.extensible (b.labelsNotIn a) f.effectVar.1) hs' hsorted hr
        (by simp [Subst.bindEffect, hrq]) rfl hzunbound fun l => ?_,
      completes_of_bound (.extensible (a.labelsNotIn b) f.effectVar.1) hs' hsorted hq
        (by simp [Subst.bindEffect]) rfl hzunbound fun l => ?_,
      .inr (.inr f.upcoming_effectVar), fun e he hae hbe => hbinds e ?_ ?_ he.1⟩
    · rw [Row.mem_labels_extensible, Row.mem_labelsNotIn ha.usable.sorted]
    · rw [Row.mem_labels_extensible, Row.mem_labelsNotIn hb.usable.sorted]
    · rintro rfl
      exact hae hr
    · rintro rfl
      exact hbe hq
  | symm _ ih =>
    obtain ⟨t, ht⟩ := ih hs hs' hsorted hb ha hbopen haopen hne.symm
    exact ⟨t, ht.symm⟩

/-- Rows with one tail are solved only if they are equal, and nothing is bound. -/
theorem RowStep.eq_of_tail_eq (h : RowStep a b s f s' f') (htail : a.tail = b.tail) :
    s' = s ∧ (a.tail ≠ none → a = b) := by
  induction h with
  | refl => exact ⟨rfl, fun _ => rfl⟩
  | closed hnone => exact ⟨rfl, fun hopen => (hopen hnone).elim⟩
  | close ha hb => exact nomatch ha.symm.trans (htail.trans hb)
  | join ha hb hne | share ha hb hne =>
    exact (hne (Option.some.inj (ha.symm.trans (htail.trans hb)))).elim
  | symm _ ih => exact ⟨(ih htail.symm).1, fun hopen => ((ih htail.symm).2 (htail ▸ hopen)).symm⟩

/-- Rows clash if a closed one lacks labels of the other or if they have one tail and different
labels. -/
theorem clash_rows (h : (Equation.rows a b).Clash) :
    (b.tail = none ∧ a.labelsNotIn b ≠ []) ∨ (a.tail = none ∧ b.labelsNotIn a ≠ []) ∨
      a.tail ≠ none ∧ a.tail = b.tail ∧ a ≠ b := by
  generalize heq : Equation.rows a b = eq at h
  induction h generalizing a b with
  | occurs | shapes => cases heq
  | closedRowLacks hb hab =>
    cases heq
    exact .inl ⟨hb, hab⟩
  | sharedTail hne ha hb =>
    cases heq
    exact .inr (.inr ⟨by simp [ha], ha.trans hb.symm, hne⟩)
  | symm _ ih =>
    cases heq
    rcases ih rfl with h | h | ⟨hopen, htail, hne⟩
    · exact .inr (.inl h)
    · exact .inl h
    · exact .inr (.inr ⟨htail ▸ hopen, htail.symm, hne.symm⟩)

end Unify

namespace Infer

open Unify

variable {st st' : InferState} {sub sup : Row} {origin : Origin} {f : Fresh} {s s' : Subst}

/-- The row is open, or it has been opened by a drawn tail. -/
def Opens (r opened : Row) (f : Fresh) : Prop :=
  r.tail ≠ none ∧ opened = r ∨
    r.tail = none ∧ ∃ e, opened = .extensible r.labels e ∧ f.Upcoming (.effect e)

/-- Subeffecting opens the smaller row and solves the equation of both. -/
theorem subeffect_outcome (hst : st.subst.Valid st.fresh) (hsub : sub.Usable st.fresh)
    (origin : Origin) :
    ∃ opened f, st.subst.Valid f ∧ st.fresh.Later f ∧ opened.Resolved st.subst f ∧
      Opens (st.subst.applyRow sub) opened st.fresh ∧
      ((∃ st', subeffect sub sup origin st = .ok ⟨⟩ st' ∧
          RowStep (st.subst.applyRow sup) opened st.subst f st'.subst st'.fresh) ∨
        (Equation.rows (st.subst.applyRow sup) opened).Clash ∧
          ∃ err st', subeffect sub sup origin st = .error err st') := by
  obtain ⟨opened, st₁, hopen⟩ := exists_openRow (st.subst.applyRow sub) st
  obtain ⟨hdraws, hcases⟩ := openRow_cases hst.distinct hopen
  have hresolved : opened.Resolved st.subst st₁.fresh := by
    obtain ⟨-, husable, -⟩ := openRow_ok hst.distinct (hst.applyRow_usable hsub) hopen
    refine ⟨husable, ?_⟩
    rcases hcases with ⟨-, rfl⟩ | ⟨-, z, rfl, hz⟩
    · exact (hst.resolved hsub).unbound
    · rintro e ⟨⟩
      exact fun hbinds => hst.unmentioned hz.1 (.inl hbinds)
  have hrun : subeffect sub sup origin st = unifyRows sup opened origin st₁ := bind_of_ok hopen
  have hrows : Unify.rows st.subst sup opened =
      solveRows st.subst (st.subst.applyRow sup) opened := by
    rw [Unify.rows, hresolved.applyRow_eq]
  refine ⟨opened, st₁.fresh, hst.later hdraws.later, hdraws.later, hresolved,
    hcases.imp_right fun h => ⟨h.1, h.2.imp fun e he => ⟨he.1, he.2.1⟩⟩, ?_⟩
  rcases solveRows_outcome st.subst (st.subst.applyRow sup) opened st₁.unifier with
    ⟨s', u', hok, hstep⟩ | ⟨hclash, err, u', herr⟩
  · rw [← hrows, ← hdraws.subst] at hok
    exact .inl ⟨_, by rw [hrun, unifyRows, runUnify_eq, hok], hstep⟩
  · rw [← hrows, ← hdraws.subst] at herr
    exact .inr ⟨hclash, _, _, by rw [hrun, unifyRows, runUnify_eq, herr]⟩

/-- What is merged with an opened row is merged with the row. -/
theorem Opens.merges {a r opened : Row} {f₁ : Fresh} {t : EffectVar} (h : Opens r opened f)
    (hlater : f.Later f₁) (hmerges : Merges a opened s s' f₁ t) : Merges a r s s' f t := by
  rcases h with ⟨-, rfl⟩ | ⟨hclosed, z, rfl, hz⟩
  · exact ⟨hmerges.left, hmerges.right, hmerges.tail.imp_right (Or.imp_right hlater.upcoming),
      fun e he => hmerges.others e ⟨he.1, fun hup => he.2 (hlater.upcoming hup)⟩⟩
  · refine ⟨fun q hq => ?_, fun q hq => ?_, hmerges.tail.imp_right fun h => .inr ?_,
      fun e he ha _ => ?_⟩
    · simpa only [Row.mem_labels_extensible] using hmerges.left q hq
    · rw [hclosed] at hq
      cases hq
    · rcases h with h | h
      · cases h
        exact hz
      · exact hlater.upcoming h
    · refine hmerges.others e ⟨he.1, fun hup => he.2 (hlater.upcoming hup)⟩ ha ?_
      rintro ⟨⟩
      exact he.2 hz

section Outcomes

variable (hst : st.subst.Valid st.fresh) (hsub : sub.Usable st.fresh) (origin : Origin)

include hst hsub

/-- A row that is closed or has another tail always fits into an open row. -/
theorem subeffect_merges (hsup : sup.Usable st.fresh) (hopen : (st.subst.applyRow sup).tail ≠ none)
    (hne : (st.subst.applyRow sub).tail ≠ (st.subst.applyRow sup).tail) :
    ∃ st' t, subeffect sub sup origin st = .ok ⟨⟩ st' ∧
      Merges (st.subst.applyRow sup) (st.subst.applyRow sub) st.subst st'.subst st.fresh t := by
  obtain ⟨opened, f, hvalid, hlater, hresolved, hopens, hrun⟩ := subeffect_outcome hst hsub origin
  have hsup' := hst.resolved hsup
  have htails : opened.tail ≠ none ∧ (st.subst.applyRow sup).tail ≠ opened.tail := by
    rcases hopens with ⟨htail, rfl⟩ | ⟨-, z, rfl, hz⟩
    · exact ⟨htail, hne.symm⟩
    · exact ⟨nofun, fun heq => hsup'.usable.drawn z heq hz⟩
  rcases hrun with ⟨st', hok, hstep⟩ | ⟨hclash, -⟩
  · obtain ⟨hruns, -⟩ := subeffect_ok hst hsub hsup hok
    obtain ⟨t, ht⟩ := hstep.merges hvalid hruns.valid.acyclic hruns.valid.sorted
      ⟨hsup'.usable.later hlater, hsup'.unbound⟩ hresolved hopen htails.1 htails.2
    exact ⟨st', t, hok, hopens.merges hlater ht⟩
  · rcases clash_rows hclash with ⟨h, -⟩ | ⟨h, -⟩ | ⟨-, h, -⟩
    · exact (htails.1 h).elim
    · exact (hopen h).elim
    · exact (htails.2 h).elim

/-- A row with the same tail fits only if it is the same row. -/
theorem subeffect_sameTail (hopen : (st.subst.applyRow sup).tail ≠ none)
    (htail : (st.subst.applyRow sub).tail = (st.subst.applyRow sup).tail) :
    (st.subst.applyRow sub = st.subst.applyRow sup ∧
        ∃ st', subeffect sub sup origin st = .ok ⟨⟩ st' ∧ st'.subst = st.subst) ∨
      st.subst.applyRow sub ≠ st.subst.applyRow sup ∧
        ∃ err st', subeffect sub sup origin st = .error err st' := by
  obtain ⟨opened, f, -, -, -, hopens, hrun⟩ := subeffect_outcome hst hsub origin
  obtain rfl : opened = st.subst.applyRow sub := by
    rcases hopens with ⟨-, heq⟩ | ⟨hclosed, -⟩
    · exact heq
    · exact (hopen (htail ▸ hclosed)).elim
  rcases hrun with ⟨st', hok, hstep⟩ | ⟨hclash, herror⟩
  · obtain ⟨hsubst, heq⟩ := hstep.eq_of_tail_eq htail.symm
    exact .inl ⟨(heq hopen).symm, st', hok, hsubst⟩
  · refine .inr ⟨fun heq => ?_, herror⟩
    rcases clash_rows hclash with ⟨h, -⟩ | ⟨h, -⟩ | ⟨-, -, h⟩
    · exact hopen (htail ▸ h)
    · exact hopen h
    · exact h heq.symm

/-- A closed row fits into a closed row with all its labels, and no variable is bound. -/
theorem subeffect_closed (hsup : sup.Usable st.fresh)
    (hclosed : (st.subst.applyRow sub).tail = none) (hclosed' : (st.subst.applyRow sup).tail = none)
    (hlabels : ∀ l ∈ (st.subst.applyRow sub).labels, l ∈ (st.subst.applyRow sup).labels) :
    ∃ st', subeffect sub sup origin st = .ok ⟨⟩ st' ∧
      ∀ e, st.subst.Undetermined st.fresh e → ¬ st'.subst.Binds (.effect e) := by
  obtain ⟨opened, f, hvalid, hlater, hresolved, hopens, hrun⟩ := subeffect_outcome hst hsub origin
  obtain ⟨hopen, -⟩ | ⟨-, z, rfl, hz⟩ := hopens
  · exact (hopen hclosed).elim
  rcases hrun with ⟨st', hok, hstep⟩ | ⟨hclash, -⟩
  · refine ⟨st', hok, fun e he => ?_⟩
    have hocc (x : EffectVar) (hx : .effect x ∈ (Equation.rows (st.subst.applyRow sup)
        (.extensible (st.subst.applyRow sub).labels z)).occurrences) : x = z := by
      simpa [Equation.occurrences, hclosed', Row.extensible] using hx
    have hdrawn := hresolved.usable.drawn z rfl
    rcases hstep.effects hvalid.distinct (fun x hx hmem => hdrawn (hocc x hmem ▸ hx)) e with h |
      ⟨h, -⟩
    · simpa [Subst.Binds, h] using he.1
    · exact (he.2 (hocc e h ▸ hz)).elim
  · rcases clash_rows hclash with ⟨h, -⟩ | ⟨-, h⟩ | ⟨h, -⟩
    · cases h
    · refine (h ((Row.labelsNotIn_eq_nil (hst.applyRow_usable hsup).sorted).mpr
        fun l hl => ?_)).elim
      exact hlabels l (Row.mem_labels_extensible.mp hl)
    · exact (h hclosed').elim

end Outcomes

/-! ## Contained rows -/

/-- Every undetermined variable still stands for a variable, and different ones stand for different
ones. -/
structure KeepsVariables (s : Subst) (f : Fresh) (s' : Subst) : Prop where
  isVar : ∀ e, s.Undetermined f e → ∃ t, s'.applyRow (.ofVar e) = .ofVar t
  distinct : ∀ e e', s.Undetermined f e → s.Undetermined f e' → e ≠ e' →
    s'.applyRow (.ofVar e) ≠ s'.applyRow (.ofVar e')

theorem applyRow_ofVar {e : EffectVar} (h : ¬ s.Binds (.effect e)) :
    s.applyRow (.ofVar e) = .ofVar e :=
  Valuation.row_of_none (Subst.effects_of_not_binds h)

theorem keepsVariables_of_not_binds (h : ∀ e, s.Undetermined f e → ¬ s'.Binds (.effect e)) :
    KeepsVariables s f s' := by
  refine ⟨fun e he => ⟨e, applyRow_ofVar (h e he)⟩, fun e e' he he' hne heq => hne ?_⟩
  rw [applyRow_ofVar (h e he), applyRow_ofVar (h e' he')] at heq
  exact Option.some.inj (congrArg Row.tail heq)

/-- A closed row that is contained in an open one at most gives the tail of that row another
name. -/
theorem keepsVariables_of_merges {a b : Row} {t : EffectVar} (h : Merges a b s s' f t)
    (hclosed : b.tail = none) (hlabels : ∀ l ∈ b.labels, l ∈ a.labels) : KeepsVariables s f s' := by
  have htail (r : EffectVar) (hr : a.tail = some r) : s'.applyRow (.ofVar r) = .ofVar t := by
    obtain ⟨htail, hlabels'⟩ := h.left r hr
    refine Row.eq_of_isSorted (s'.valuation.isSorted_row r) (Row.isSorted_ofVar t)
      (fun l => ?_) htail
    refine iff_of_false (fun hl => ?_) List.not_mem_nil
    obtain ⟨hb, ha⟩ := (hlabels' l).mp hl
    exact ha (hlabels l hb)
  have hself (e : EffectVar) (he : s.Undetermined f e) (ha : a.tail ≠ some e) :
      s'.applyRow (.ofVar e) = .ofVar e :=
    applyRow_ofVar (h.others e he ha (by simp [hclosed]))
  -- the new name of the tail is none of the other variables
  have hne (r e : EffectVar) (hr : a.tail = some r) (he : s.Undetermined f e) (hre : r ≠ e) :
      t ≠ e := by
    rintro rfl
    rcases h.tail with ht | ht | ht
    · exact hre (Option.some.inj (hr.symm.trans ht))
    · rw [hclosed] at ht
      cases ht
    · exact he.2 ht
  refine ⟨fun e he => ?_, fun e e' he he' hee heq => ?_⟩
  · by_cases ha : a.tail = some e
    · exact ⟨t, htail e ha⟩
    · exact ⟨e, hself e he ha⟩
  · by_cases ha : a.tail = some e
    · have ha' : a.tail ≠ some e' := fun h => hee (Option.some.inj (ha.symm.trans h))
      rw [htail e ha, hself e' he' ha'] at heq
      exact hne e e' ha he' hee (Option.some.inj (congrArg Row.tail heq))
    · by_cases ha' : a.tail = some e'
      · rw [hself e he ha, htail e' ha'] at heq
        exact hne e' e ha' he (Ne.symm hee) (Option.some.inj (congrArg Row.tail heq.symm))
      · rw [hself e he ha, hself e' he' ha'] at heq
        exact hee (Option.some.inj (congrArg Row.tail heq))

/-- What subeffecting does with a contained row: a closed row or the same row is accepted, any other
row with the same tail is not. -/
theorem subeffect_contained (hst : st.subst.Valid st.fresh) (hsub : sub.Usable st.fresh)
    (hsup : sup.Usable st.fresh) (hle : st.subst.applyRow sub ≤ st.subst.applyRow sup)
    (origin : Origin) :
    (((st.subst.applyRow sub).tail = none ∨ st.subst.applyRow sup ≤ st.subst.applyRow sub) ∧
        ∃ st', subeffect sub sup origin st = .ok ⟨⟩ st' ∧
        KeepsVariables st.subst st.fresh st'.subst) ∨
      ¬ ((st.subst.applyRow sub).tail = none ∨ st.subst.applyRow sup ≤ st.subst.applyRow sub) ∧
        ∃ err st', subeffect sub sup origin st = .error err st' := by
  by_cases hclosed : (st.subst.applyRow sub).tail = none
  · refine .inl ⟨.inl hclosed, ?_⟩
    by_cases hclosed' : (st.subst.applyRow sup).tail = none
    · obtain ⟨st', hok, hbinds⟩ := subeffect_closed hst hsub origin hsup hclosed hclosed' hle.1
      exact ⟨st', hok, keepsVariables_of_not_binds hbinds⟩
    · obtain ⟨st', t, hok, hmerges⟩ :=
        subeffect_merges hst hsub origin hsup hclosed' (hclosed ▸ Ne.symm hclosed')
      exact ⟨st', hok, keepsVariables_of_merges hmerges hclosed hle.1⟩
  · have htail := hle.2.resolve_left hclosed
    rcases subeffect_sameTail hst hsub origin (htail ▸ hclosed) htail with
      ⟨heq, st', hok, hsubst⟩ | ⟨hne, herror⟩
    · refine .inl ⟨.inr (by rw [heq]), st', hok, ?_⟩
      exact keepsVariables_of_not_binds fun e he => hsubst ▸ he.1
    · refine .inr ⟨?_, herror⟩
      rintro (h | h)
      · exact hclosed h
      · exact hne (Row.eq_of_isSorted (hst.applyRow_usable hsub).sorted
          (hst.applyRow_usable hsup).sorted (fun l => ⟨hle.1 l, h.1 l⟩) htail)

/-- A row that is contained in another one is accepted exactly if it is closed or has all labels of
the other one, and then no undetermined variable is specialized. -/
theorem contained_row_accepted_iff (hst : st.subst.Valid st.fresh) (hsub : sub.Usable st.fresh)
    (hsup : sup.Usable st.fresh) (hle : st.subst.applyRow sub ≤ st.subst.applyRow sup)
    (origin : Origin) :
    ((∃ st', subeffect sub sup origin st = .ok ⟨⟩ st') ↔
      (st.subst.applyRow sub).tail = none ∨ st.subst.applyRow sup ≤ st.subst.applyRow sub) ∧
    ∀ st', subeffect sub sup origin st = .ok ⟨⟩ st' →
      (∀ e, st.subst.Undetermined st.fresh e → ∃ t, st'.subst.applyRow (.ofVar e) = .ofVar t) ∧
      ∀ e e', st.subst.Undetermined st.fresh e → st.subst.Undetermined st.fresh e' → e ≠ e' →
        st'.subst.applyRow (.ofVar e) ≠ st'.subst.applyRow (.ofVar e') := by
  rcases subeffect_contained hst hsub hsup hle origin with
    ⟨hfits, st', hok, hkeeps⟩ | ⟨hfits, err, st', herror⟩
  · refine ⟨iff_of_true ⟨st', hok⟩ hfits, fun st'' hok' => ?_⟩
    cases hok.symm.trans hok'
    exact ⟨hkeeps.isVar, hkeeps.distinct⟩
  · refine ⟨iff_of_false ?_ hfits, fun st'' hok => ?_⟩
    · rintro ⟨st'', hok⟩
      cases herror.symm.trans hok
    · cases herror.symm.trans hok

/-- The state before an inference that has drawn two variables of each kind. -/
def outset : InferState := .start { supply := .standalone 2 2 } {}

theorem valid_outset : outset.subst.Valid outset.fresh :=
  ⟨Subst.acyclic_empty, Subst.rowsSorted_empty, Fresh.distinct_standalone 2 2 _,
    fun _ => Subst.not_mentions_empty⟩

theorem usable_outset {r : Row}
    (h : r.labels.Pairwise (compare · · = .lt) ∧ ∀ e ∈ r.tail, e.id < 2) :
    r.Usable outset.fresh :=
  ⟨h.1, fun e he hup => Nat.not_lt_of_le (Fresh.upcoming_standalone_effect.mp hup) (h.2 e he)⟩

/-- The closed row `{io}` is accepted by `{io | e}`, and `e` and another variable stay two
variables. -/
theorem contained_row_accepted_iff_closed :
    ∃ st', subeffect ⟨["io"], none⟩ ⟨["io"], some ⟨0⟩⟩ ⟨.synthetic, .callEffects⟩ outset =
      .ok ⟨⟩ st' ∧ (∃ t, st'.subst.applyRow (.ofVar ⟨0⟩) = .ofVar t) ∧
      st'.subst.applyRow (.ofVar ⟨0⟩) ≠ st'.subst.applyRow (.ofVar ⟨1⟩) := by
  have hsub : Row.Usable ⟨["io"], none⟩ outset.fresh := usable_outset (by decide)
  have hsup : Row.Usable ⟨["io"], some ⟨0⟩⟩ outset.fresh := usable_outset (by decide)
  have hle : outset.subst.applyRow ⟨["io"], none⟩ ≤ outset.subst.applyRow ⟨["io"], some ⟨0⟩⟩ :=
    ⟨fun _ h => h, Or.inl rfl⟩
  have hfree (n : Nat) (hn : n < 2) : outset.subst.Undetermined outset.fresh ⟨n⟩ :=
    ⟨fun h => Subst.not_mentions_empty (Or.inl h),
      fun hup => Nat.not_lt_of_le (Fresh.upcoming_standalone_effect.mp hup) hn⟩
  have hmain := contained_row_accepted_iff valid_outset hsub hsup hle ⟨.synthetic, .callEffects⟩
  obtain ⟨st', hok⟩ := hmain.1.mpr (Or.inl rfl)
  obtain ⟨hvar, hdistinct⟩ := hmain.2 st' hok
  exact ⟨st', hok, hvar _ (hfree 0 (by decide)),
    hdistinct _ _ (hfree 0 (by decide)) (hfree 1 (by decide)) (by decide)⟩

/-- The row `{e}` is contained in `{io | e}`, which does not accept it. -/
theorem contained_row_rejected :
    outset.subst.Valid outset.fresh ∧ (Row.ofVar ⟨0⟩).Usable outset.fresh ∧
      Row.Usable ⟨["io"], some ⟨0⟩⟩ outset.fresh ∧
      outset.subst.applyRow (.ofVar ⟨0⟩) ≤ outset.subst.applyRow ⟨["io"], some ⟨0⟩⟩ ∧
      ¬ ∃ st', subeffect (.ofVar ⟨0⟩) ⟨["io"], some ⟨0⟩⟩ ⟨.synthetic, .callEffects⟩ outset =
        .ok ⟨⟩ st' := by
  have hsub : (Row.ofVar ⟨0⟩).Usable outset.fresh := usable_outset (by decide)
  have hsup : Row.Usable ⟨["io"], some ⟨0⟩⟩ outset.fresh := usable_outset (by decide)
  have hle : outset.subst.applyRow (.ofVar ⟨0⟩) ≤ outset.subst.applyRow ⟨["io"], some ⟨0⟩⟩ :=
    ⟨fun _ h => (List.not_mem_nil h).elim, Or.inr rfl⟩
  refine ⟨valid_outset, hsub, hsup, hle, ?_⟩
  rcases subeffect_contained valid_outset hsub hsup hle ⟨.synthetic, .callEffects⟩ with
    ⟨h, -⟩ | ⟨-, err, st', herror⟩
  · rcases h with h | h
    · cases h
    · cases h.1 "io" List.mem_cons_self
  · rintro ⟨st'', hok⟩
    cases herror.symm.trans hok

end Infer

end RowTyping
