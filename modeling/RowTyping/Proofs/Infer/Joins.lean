import RowTyping.Proofs.Infer.Subeffects

/-!
# Joins of rows

A join lets a fresh variable take over one row after the other. While it runs, the variable stands
for the labels of the rows so far and an open tail, and the tail of each of these rows goes on with
the same tail (`Infer.Collects`). A row that shares its tail with an earlier one can add nothing any
more, so a join of such rows may fail (`Infer.join_outcome`); a join that succeeds has the labels of
all rows.
-/

namespace RowTyping.Infer

open List

open Unify

variable {st st' : InferState} {origin : Origin}

/-- One of the rows has the label. -/
def HasLabel (rows : List Row) (l : String) : Prop :=
  ∃ r ∈ rows, l ∈ r.labels

instance (rows : List Row) (l : String) : Decidable (HasLabel rows l) :=
  inferInstanceAs (Decidable (∃ r ∈ rows, l ∈ r.labels))

/-- The first row with a tail. -/
def firstWith (e : EffectVar) (rows : List Row) : Option Row :=
  rows.find? (·.tail = some e)

/-- The row can be joined to earlier ones: if one of them has its tail, then it has all labels of
the first such row and no label that is new. -/
def FitsAfter (before : List Row) (r : Row) : Prop :=
  ∀ first ∈ r.tail.bind (firstWith · before),
    (∀ l ∈ first.labels, l ∈ r.labels) ∧ ∀ l ∈ r.labels, HasLabel before l

instance (before : List Row) (r : Row) : Decidable (FitsAfter before r) :=
  inferInstanceAs (Decidable (∀ first ∈ r.tail.bind (firstWith · before), _))

theorem fitsAfter_iff {before : List Row} {r : Row} :
    FitsAfter before r ↔ ∀ e first, r.tail = some e → firstWith e before = some first →
      (∀ l ∈ first.labels, l ∈ r.labels) ∧ ∀ l ∈ r.labels, HasLabel before l := by
  constructor
  · intro h e first he hfirst
    exact h first (Option.bind_eq_some_iff.mpr ⟨e, he, hfirst⟩)
  · intro h first hfirst
    obtain ⟨e, he, hfirst⟩ := Option.bind_eq_some_iff.mp hfirst
    exact h e first he hfirst

theorem fitsAfter_nil (r : Row) : FitsAfter [] r := by
  simp [FitsAfter, firstWith]

/-- Rows that can be joined one after the other. -/
def FitInTurn : List Row → List Row → Prop
  | _, [] => True
  | before, r :: rows => FitsAfter before r ∧ FitInTurn (before ++ [r]) rows

instance : (before rows : List Row) → Decidable (FitInTurn before rows)
  | _, [] => .isTrue trivial
  | before, r :: rows =>
    haveI := instDecidableFitInTurn (before ++ [r]) rows
    inferInstanceAs (Decidable (FitsAfter before r ∧ FitInTurn (before ++ [r]) rows))

/-- What the variable of a join and the tails of its rows stand for when some rows have been joined.
All go on with one tail. The tail of a row takes the labels that the first row with it lacks. -/
structure Collects (s₀ : Subst) (f₀ : Fresh) (j : EffectVar) (done : List Row) (s : Subst)
    (t : EffectVar) : Prop where
  tail : (s.valuation.row j).tail = some t
  labels : ∀ l, l ∈ (s.valuation.row j).labels ↔ HasLabel done l
  seen : ∀ e first, firstWith e done = some first → (s.valuation.row e).tail = some t ∧
    ∀ l, l ∈ (s.valuation.row e).labels ↔ HasLabel done l ∧ l ∉ first.labels
  unseen : ∀ e, s₀.Undetermined f₀ e → firstWith e done = none → ¬ s.Binds (.effect e) ∧ e ≠ t

section Collects

variable {s₀ s s' : Subst} {f₀ f : Fresh} {j t : EffectVar} {done : List Row} {r : Row}

theorem hasLabel_append {l : String} :
    HasLabel (done ++ [r]) l ↔ HasLabel done l ∨ l ∈ r.labels := by
  simp [HasLabel, or_and_right, exists_or]

/-- The labels of the first row with a tail are among those of all rows. -/
theorem hasLabel_of_firstWith {e : EffectVar} {first : Row} (h : firstWith e done = some first)
    {l : String} (hl : l ∈ first.labels) : HasLabel done l :=
  ⟨first, mem_of_find?_eq_some h, hl⟩

theorem firstWith_append {e : EffectVar} {rows : List Row} :
    firstWith e (rows ++ [r]) =
      (firstWith e rows).or (if r.tail = some e then some r else none) := by
  rw [firstWith, find?_append, find?_singleton]
  simp [firstWith]

/-- Where nothing is bound between, a further row with the labels that are there changes nothing. -/
theorem Collects.append_same (h : Collects s₀ f₀ j done s t) {e : EffectVar} {first : Row}
    (hr : r.tail = some e) (hfirst : firstWith e done = some first)
    (hlabels : ∀ l ∈ r.labels, HasLabel done l) : Collects s₀ f₀ j (done ++ [r]) s t := by
  have hmem (l : String) : HasLabel (done ++ [r]) l ↔ HasLabel done l :=
    hasLabel_append.trans (or_iff_left_of_imp (hlabels l))
  have hfirst' (e' : EffectVar) : firstWith e' (done ++ [r]) = firstWith e' done := by
    rw [firstWith_append]
    by_cases he : r.tail = some e'
    · obtain rfl : e = e' := Option.some.inj (hr.symm.trans he)
      rw [hfirst, Option.some_or]
    · rw [if_neg he, Option.or_none]
  refine ⟨h.tail, fun l => (h.labels l).trans (hmem l).symm, fun e' first' hfirst'' => ?_,
    fun e' he' hnone => ?_⟩
  · rw [hfirst'] at hfirst''
    simpa only [hmem] using h.seen e' first' hfirst''
  · exact h.unseen e' he' (hfirst' e' ▸ hnone)

/-- A row that has no tail of an earlier one merges with what has been collected. -/
theorem Collects.append_merged (h : Collects s₀ f₀ j done s t) {t' : EffectVar}
    (hmerges : Merges (s.valuation.row j) r s s' f t') (hlater : f₀.Later f)
    (habsorbs : s'.valuation.Absorbs s) :
    Collects s₀ f₀ j (done ++ [r]) s' t' := by
  -- what went on with the old tail goes on with the new one and gets the new labels
  have hgoes (e : EffectVar) (he : (s.valuation.row e).tail = some t) :
      (s'.valuation.row e).tail = some t' ∧ ∀ l, l ∈ (s'.valuation.row e).labels ↔
        l ∈ (s.valuation.row e).labels ∨ l ∈ r.labels ∧ ¬ HasLabel done l := by
    obtain ⟨htail, hlabels⟩ := hmerges.left t h.tail
    rw [← habsorbs, Valuation.row_andThen, Row.tail_under_of_some he]
    refine ⟨htail, fun l => ?_⟩
    rw [Row.mem_labels_under_of_some he, hlabels, h.labels]
  refine ⟨(hgoes j h.tail).1, fun l => ?_, fun e first hfirst => ?_, fun e he hnone => ?_⟩
  · rw [(hgoes j h.tail).2, h.labels, hasLabel_append]
    tauto
  · rw [firstWith_append] at hfirst
    rcases hdone : firstWith e done with _ | first'
    · -- the row is the first one with its tail
      simp only [hdone, Option.none_or, Option.ite_none_right_eq_some, Option.some.injEq] at hfirst
      obtain ⟨he, rfl⟩ := hfirst
      obtain ⟨htail, hlabels⟩ := hmerges.right e he
      refine ⟨htail, fun l => ?_⟩
      rw [hlabels, h.labels, hasLabel_append]
      tauto
    · obtain rfl : first' = first := by simpa [hdone] using hfirst
      obtain ⟨htail, hlabels⟩ := h.seen e first' hdone
      refine ⟨(hgoes e htail).1, fun l => ?_⟩
      have hnew : l ∈ first'.labels → HasLabel done l := hasLabel_of_firstWith hdone
      rw [(hgoes e htail).2, hlabels, hasLabel_append]
      tauto
  · rw [firstWith_append, Option.or_eq_none_iff] at hnone
    have hre : r.tail ≠ some e := fun hre => by simp [hre] at hnone
    obtain ⟨hunbound, hne⟩ := h.unseen e he hnone.1
    have hdrawn : ¬ f.Upcoming (.effect e) := fun hup => he.2 (hlater.upcoming hup)
    refine ⟨hmerges.others e ⟨hunbound, hdrawn⟩ (fun ha => ?_) hre, ?_⟩
    · exact hne (Option.some.inj (ha.symm.trans h.tail))
    · rintro rfl
      rcases hmerges.tail with ht | ht | ht
      · exact hne (Option.some.inj (ht.symm.trans h.tail))
      · exact hre ht
      · exact hdrawn ht

end Collects

section Run

variable {s₀ : Subst} {f₀ : Fresh} {j t : EffectVar} {done rows : List Row} {r : Row}

/-- A row whose tail has been seen fits into what has been collected exactly if it adds nothing to
it. -/
theorem Collects.applyRow_eq_iff (h : Collects s₀ f₀ j done st.subst t) (hsorted : r.IsSorted)
    {e : EffectVar} {first : Row} (hr : r.tail = some e) (hfirst : firstWith e done = some first) :
    st.subst.applyRow r = st.subst.applyRow (.ofVar j) ↔ FitsAfter done r := by
  rw [fitsAfter_iff]
  obtain ⟨htail, hlabels⟩ := h.seen e first hfirst
  have hmem (l : String) : l ∈ (st.subst.applyRow r).labels ↔
      l ∈ r.labels ∨ HasLabel done l ∧ l ∉ first.labels := by
    rw [Subst.applyRow_eq_under, Row.mem_labels_under_of_some hr, hlabels]
  constructor
  · intro heq e' first' hr' hfirst'
    obtain rfl : e = e' := Option.some.inj (hr.symm.trans hr')
    obtain rfl : first = first' := Option.some.inj (hfirst.symm.trans hfirst')
    have hsame (l : String) : l ∈ r.labels ∨ HasLabel done l ∧ l ∉ first.labels ↔
        HasLabel done l := by
      rw [← hmem, heq]
      exact h.labels l
    refine ⟨fun l hl => ?_, fun l hl => (hsame l).mp (.inl hl)⟩
    exact ((hsame l).mpr (hasLabel_of_firstWith hfirst hl)).resolve_right fun hnot => hnot.2 hl
  · intro hfits
    obtain ⟨hfirst', hnew⟩ := hfits e first hr hfirst
    refine Row.eq_of_isSorted (hsorted.under st.subst.valuation) (st.subst.valuation.isSorted_row j)
      (fun l => ?_) ?_
    · rw [hmem]
      refine Iff.trans ?_ (h.labels l).symm
      have := hfirst' l
      have := hnew l
      tauto
    · rw [Subst.applyRow_eq_under, Row.tail_under_of_some hr, htail]
      exact h.tail.symm

/-- One more row is joined, or it does not fit. -/
theorem Collects.step (h : Collects s₀ f₀ j done st.subst t) (hst : st.subst.Valid st.fresh)
    (hlater : f₀.Later st.fresh) (hj : ¬ st.fresh.Upcoming (.effect j)) (hr : r.Resolved s₀ f₀)
    (origin : Origin) :
    (FitsAfter done r ∧ ∃ st' t', subeffect r (.ofVar j) origin st = .ok ⟨⟩ st' ∧
        Collects s₀ f₀ j (done ++ [r]) st'.subst t') ∨
      ¬ FitsAfter done r ∧ ∃ err st', subeffect r (.ofVar j) origin st = .error err st' := by
  have husable := hr.usable.later hlater
  have hjoined : (st.subst.applyRow (.ofVar j)).tail = some t := h.tail
  have hopen : (st.subst.applyRow (.ofVar j)).tail ≠ none := by simp [hjoined]
  by_cases hseen : ∃ e first, r.tail = some e ∧ firstWith e done = some first
  · -- the tail of the row goes on with the tail of the join already
    obtain ⟨e, first, htail, hfirst⟩ := hseen
    have hsame : (st.subst.applyRow r).tail = (st.subst.applyRow (.ofVar j)).tail := by
      rw [Subst.applyRow_eq_under, Row.tail_under_of_some htail, (h.seen e first hfirst).1, hjoined]
    have hiff := h.applyRow_eq_iff hr.usable.sorted htail hfirst
    rcases subeffect_sameTail hst husable origin hopen hsame with ⟨heq, st', hok, hsubst⟩ |
      ⟨hne, herror⟩
    · have hfits := hiff.mp heq
      refine .inl ⟨hfits, st', t, hok, ?_⟩
      rw [hsubst]
      exact h.append_same htail hfirst (fitsAfter_iff.mp hfits e first htail hfirst).2
    · exact .inr ⟨mt hiff.mpr hne, herror⟩
  · -- the row is as it was when the join began
    have hunseen (e : EffectVar) (he : r.tail = some e) : ¬ st.subst.Binds (.effect e) ∧ e ≠ t := by
      refine h.unseen e ⟨hr.unbound e he, hr.usable.drawn e he⟩ ?_
      exact Option.eq_none_iff_forall_ne_some.mpr fun first hfirst => hseen ⟨e, first, he, hfirst⟩
    have hself : st.subst.applyRow r = r :=
      (Row.Resolved.mk husable fun e he => (hunseen e he).1).applyRow_eq
    have hne : (st.subst.applyRow r).tail ≠ (st.subst.applyRow (.ofVar j)).tail := by
      rw [hself, hjoined]
      exact fun htail => (hunseen t htail).2 rfl
    have hofVar : (Row.ofVar j).Usable st.fresh := Row.usable_ofVar hj
    obtain ⟨st', t', hok, hmerges⟩ := subeffect_merges hst husable origin hofVar hopen hne
    obtain ⟨hruns, -⟩ := subeffect_ok hst husable hofVar hok
    rw [hself] at hmerges
    have hfits : FitsAfter done r :=
      fitsAfter_iff.mpr fun e first he hfirst => (hseen ⟨e, first, he, hfirst⟩).elim
    refine .inl ⟨hfits, st', t', hok, ?_⟩
    exact h.append_merged hmerges hlater (hruns.absorbs hst hruns.valid.acyclic.absorbs)

/-- Rows are joined in turn up to the first one that does not fit. -/
theorem Collects.run (h : Collects s₀ f₀ j done st.subst t) (hst : st.subst.Valid st.fresh)
    (hlater : f₀.Later st.fresh) (hj : ¬ st.fresh.Upcoming (.effect j))
    (hrows : ∀ r ∈ rows, r.Resolved s₀ f₀) (origin : Origin) :
    (FitInTurn done rows ∧ ∃ st' t', subeffects (.ofVar j) origin rows st = .ok ⟨⟩ st' ∧
        Collects s₀ f₀ j (done ++ rows) st'.subst t') ∨
      ¬ FitInTurn done rows ∧ ∃ err st', subeffects (.ofVar j) origin rows st = .error err st' := by
  induction rows generalizing st done t with
  | nil => exact .inl ⟨trivial, st, t, rfl, by rwa [append_nil]⟩
  | cons r rows ih =>
    rw [forall_mem_cons] at hrows
    rcases h.step hst hlater hj hrows.1 origin with ⟨hfits, st₁, t₁, hok, h₁⟩ |
      ⟨hfits, err, st₁, herror⟩
    · obtain ⟨hruns, -⟩ := subeffect_ok hst (hrows.1.usable.later hlater) (Row.usable_ofVar hj) hok
      have hrun : subeffects (.ofVar j) origin (r :: rows) st =
          subeffects (.ofVar j) origin rows st₁ :=
        bind_of_ok hok
      have hdrawn : ¬ st₁.fresh.Upcoming (.effect j) := fun hup => hj (hruns.later.upcoming hup)
      rw [hrun]
      rcases ih h₁ hruns.valid (hlater.trans hruns.later) hdrawn hrows.2 with
        ⟨hrest, st', t', hok', h'⟩ | ⟨hrest, herror⟩
      · exact .inl ⟨⟨hfits, hrest⟩, st', t', hok', by rwa [append_assoc] at h'⟩
      · exact .inr ⟨fun hall => hrest hall.2, herror⟩
    · exact .inr ⟨fun hall => hfits hall.1, err, st₁, bind_of_error herror⟩

end Run

/-! ### Rows without effects -/

section Pure

variable {rows : List Row} {r : Row}

theorem hasLabel_filter {l : String} : HasLabel (rows.filter (!·.isPure)) l ↔ HasLabel rows l := by
  refine exists_congr fun r => ?_
  rw [mem_filter, and_assoc]
  refine and_congr_right fun _ => and_iff_right_of_imp fun hl => ?_
  cases hpure : r.isPure
  · rfl
  · rw [isPure_iff.mp hpure] at hl
    cases hl

theorem firstWith_filter {e : EffectVar} :
    firstWith e (rows.filter (!·.isPure)) = firstWith e rows := by
  rw [firstWith, firstWith, find?_filter]
  refine congrArg (rows.find? ·) (funext fun r => ?_)
  by_cases he : r.tail = some e <;> simp [he, Row.isPure]

theorem fitsAfter_filter : FitsAfter (rows.filter (!·.isPure)) r ↔ FitsAfter rows r := by
  simp only [FitsAfter, firstWith_filter, hasLabel_filter]

/-- Pure rows make no difference to a join. -/
theorem fitInTurn_filter {before : List Row} :
    FitInTurn (before.filter (!·.isPure)) (rows.filter (!·.isPure)) ↔ FitInTurn before rows := by
  induction rows generalizing before with
  | nil => rfl
  | cons r rows ih =>
    have hnext := @ih (before ++ [r])
    rw [filter_append, filter_singleton] at hnext
    cases hpure : r.isPure
    · simp only [hpure, Bool.not_false, cond_true] at hnext
      rw [filter_cons_of_pos (by simp [hpure]), FitInTurn, FitInTurn, hnext, fitsAfter_filter]
    · simp only [hpure, Bool.not_true, cond_false, append_nil] at hnext
      rw [filter_cons_of_neg (by simp [hpure]), FitInTurn, hnext, isPure_iff.mp hpure]
      exact (and_iff_right (fitsAfter_iff.mpr fun e first (he : none = some e) => nomatch he)).symm

end Pure

section Join

variable {rows : List Row}

/-- A fresh variable has collected no rows. -/
theorem collects_nil {s₀ : Subst} {f₀ : Fresh} {j : EffectVar} (hs : s₀.Valid f₀)
    (hj : f₀.Upcoming (.effect j)) : Collects s₀ f₀ j [] s₀ j := by
  have hself : s₀.valuation.row j = .ofVar j := applyRow_ofVar fun h => hs.unmentioned hj (.inl h)
  refine ⟨by rw [hself]; rfl, fun l => ?_, nofun, fun e he _ => ⟨he.1, ?_⟩⟩
  · rw [hself]
    simp [HasLabel, Row.ofVar]
  · rintro rfl
    exact he.2 hj

theorem join_eq (rows : List Row) (origin : Origin) (st : InferState) :
    join rows origin st =
      (match (rows.map st.subst.applyRow).filter (!·.isPure) with
        | [] => pure .pure
        | [r] => pure r
        | rows => do
          let joined ← freshRow
          subeffects joined origin rows
          applyRow joined : InferM Row) st := rfl

/-- A join succeeds if the rows fit in turn, with the labels of all rows and without effects only if
all rows are pure. Otherwise it fails. -/
theorem join_outcome (hst : st.subst.Valid st.fresh) (hrows : ∀ r ∈ rows, r.Usable st.fresh)
    (origin : Origin) :
    (FitInTurn [] (rows.map st.subst.applyRow) ∧ ∃ j st', join rows origin st = .ok j st' ∧
        st'.subst.applyRow j = j ∧ (∀ l, l ∈ j.labels ↔ HasLabel (rows.map st.subst.applyRow) l) ∧
        (j = .pure ↔ ∀ r ∈ rows, st.subst.applyRow r = .pure)) ∨
      ¬ FitInTurn [] (rows.map st.subst.applyRow) ∧ ∃ err st', join rows origin st =
        .error err st' := by
  rw [← @fitInTurn_filter (rows.map st.subst.applyRow) []]
  simp only [← @hasLabel_filter (rows.map st.subst.applyRow)]
  have hpure : (∀ r ∈ rows, st.subst.applyRow r = .pure) ↔
      (rows.map st.subst.applyRow).filter (!·.isPure) = [] := by
    simp [filter_eq_nil_iff, isPure_iff]
  rw [hpure]
  have hkept : ∀ r ∈ (rows.map st.subst.applyRow).filter (!·.isPure),
      r.Resolved st.subst st.fresh ∧ r ≠ .pure := by
    intro r hr
    obtain ⟨hmem, hpure⟩ := mem_filter.mp hr
    obtain ⟨r₀, hr₀, rfl⟩ := mem_map.mp hmem
    exact ⟨hst.resolved (hrows r₀ hr₀), fun heq => by simp [isPure_iff.mpr heq] at hpure⟩
  rw [join_eq]
  generalize (rows.map st.subst.applyRow).filter (!·.isPure) = kept at hkept
  rcases kept with _ | ⟨r₁, _ | ⟨r₂, rest⟩⟩
  · exact .inl ⟨trivial, .pure, st, rfl, rfl, fun l => by simp [HasLabel, Row.pure],
      iff_of_true rfl rfl⟩
  · obtain ⟨hresolved, hne⟩ := hkept r₁ (.head _)
    exact .inl ⟨⟨fitsAfter_nil r₁, trivial⟩, r₁, st, rfl, hresolved.applyRow_eq,
      fun l => by simp [HasLabel], iff_of_false hne (cons_ne_nil _ _)⟩
  · -- several rows are collected in a fresh variable
    obtain ⟨joined, st₁, hfresh⟩ : ∃ joined st₁, freshRow st = .ok joined st₁ := ⟨_, _, rfl⟩
    obtain ⟨hdraws, j, rfl, hj⟩ := freshRow_ok hst.distinct hfresh
    have hcollects := collects_nil hst hj.1
    rw [← hdraws.subst] at hcollects
    rcases hcollects.run (hdraws.valid hst) hdraws.later hj.2
        (fun r hr => hdraws.subst ▸ (hkept r hr).1) origin with
      ⟨hfits, st', t, hok, h⟩ | ⟨hfits, err, st', herror⟩
    · obtain ⟨hruns, -⟩ := subeffects_ok (hdraws.valid hst)
        (fun r hr => (hkept r hr).1.usable.later hdraws.later) (Row.usable_ofVar hj.2) hok
      refine .inl ⟨hfits, st'.subst.applyRow (.ofVar j), st',
        (bind_of_ok hfresh).trans (bind_of_ok hok), ?_, h.labels,
        iff_of_false (fun hpure => ?_) (cons_ne_nil _ _)⟩
      · exact Subst.under_applyRow hruns.valid.acyclic.absorbs (.ofVar j)
      · cases h.tail.symm.trans (congrArg Row.tail hpure)
    · exact .inr ⟨hfits, err, st', (bind_of_ok hfresh).trans (bind_of_error herror)⟩

/-- The labels of a join are those of its rows, every row is contained in it from then on, and it
has no effects only if none of the rows has. -/
theorem join_is_union {j : Row} (hst : st.subst.Valid st.fresh)
    (hrows : ∀ r ∈ rows, r.Usable st.fresh) (h : join rows origin st = .ok j st') :
    (∀ l, l ∈ j.labels ↔ ∃ r ∈ rows, l ∈ (st.subst.applyRow r).labels) ∧
      (∀ r ∈ rows, st'.subst.applyRow r ≤ j) ∧
      (j.isPure ↔ ∀ r ∈ rows, (st.subst.applyRow r).isPure) := by
  rcases join_outcome hst hrows origin with
    ⟨-, j', st'', hok, hresolved, hlabels, hpure⟩ | ⟨-, err, st'', herror⟩
  · cases hok.symm.trans h
    obtain ⟨hruns, -, hle⟩ := join_ok hst hrows h
    refine ⟨fun l => (hlabels l).trans (by simp [HasLabel]), fun r hr => ?_,
      by simpa only [isPure_iff] using hpure⟩
    have hcontains := hle st'.subst.valuation hruns.valid.acyclic.absorbs r hr
    rwa [← Subst.applyRow_eq_under, ← Subst.applyRow_eq_under, hresolved] at hcontains
  · cases herror.symm.trans h

/-- A closed row and two rows with different tails have a join with the labels of all of them. -/
theorem join_is_union_open :
    ∃ j st', join [⟨["fs"], none⟩, ⟨["io"], some ⟨0⟩⟩, ⟨[], some ⟨1⟩⟩]
      ⟨.synthetic, .callEffects⟩ outset =
        .ok j st' ∧
      (∀ l, l ∈ j.labels ↔ l = "fs" ∨ l = "io") ∧ st'.subst.applyRow (.ofVar ⟨1⟩) ≤ j ∧
      ¬ j.isPure := by
  have hrows : ∀ r ∈ [⟨["fs"], none⟩, ⟨["io"], some ⟨0⟩⟩, ⟨[], some ⟨1⟩⟩],
      Row.Usable r outset.fresh :=
    fun r hr => usable_outset (by decide +revert)
  rcases join_outcome valid_outset hrows ⟨.synthetic, .callEffects⟩ with ⟨-, j, st', hok, -⟩ |
    ⟨hfits, -⟩
  · obtain ⟨hlabels, hle, hpure⟩ := join_is_union valid_outset hrows hok
    refine ⟨j, st', hok, fun l => (hlabels l).trans ?_, hle _ (by simp [Row.ofVar]), ?_⟩
    · simp [Subst.applyRow_eq_under, Subst.valuation_empty, outset, InferState.start]
    · exact fun h => absurd (hpure.mp h _ mem_cons_self) (by decide)
  · exact (hfits (by decide)).elim

/-- Rows can be joined exactly if every row that has the tail of an earlier one has all labels of
the first such row and no label that none of the earlier rows has. -/
theorem join_succeeds_iff (hst : st.subst.Valid st.fresh) (hrows : ∀ r ∈ rows, r.Usable st.fresh)
    (origin : Origin) :
    (∃ j st', join rows origin st = .ok j st') ↔ FitInTurn [] (rows.map st.subst.applyRow) := by
  rcases join_outcome hst hrows origin with ⟨hfits, j, st', hok, -⟩ | ⟨hfits, err, st', herror⟩
  · exact iff_of_true ⟨j, st', hok⟩ hfits
  · refine iff_of_false ?_ hfits
    rintro ⟨j, st'', hok⟩
    cases herror.symm.trans hok

end Join

/-- The third row has the tail of the first one, its label, and a label of the second row. -/
theorem join_succeeds_iff_repeated :
    ∃ j st', join [⟨["io"], some ⟨0⟩⟩, ⟨["fs"], none⟩, ⟨["fs", "io"], some ⟨0⟩⟩]
      ⟨.synthetic, .callEffects⟩ outset = .ok j st' :=
  (join_succeeds_iff valid_outset (fun r hr => usable_outset (by decide +revert)) _).mpr (by decide)

/-- Rows with one tail and different labels have no join. -/
theorem rows_without_join :
    outset.subst.Valid outset.fresh ∧
      (∀ r ∈ [⟨["io"], some ⟨0⟩⟩, ⟨["fs"], some ⟨0⟩⟩], Row.Usable r outset.fresh) ∧
      ¬ ∃ j st', join [⟨["io"], some ⟨0⟩⟩, ⟨["fs"], some ⟨0⟩⟩] ⟨.synthetic, .callEffects⟩ outset =
        .ok j st' := by
  have hrows : ∀ r ∈ [⟨["io"], some ⟨0⟩⟩, ⟨["fs"], some ⟨0⟩⟩], Row.Usable r outset.fresh :=
    fun r hr => usable_outset (by decide +revert)
  refine ⟨valid_outset, hrows, ?_⟩
  rcases join_outcome valid_outset hrows ⟨.synthetic, .callEffects⟩ with ⟨hfits, -⟩ |
    ⟨-, err, st', herror⟩
  · exact absurd hfits (by decide)
  · rintro ⟨j, st'', hok⟩
    cases herror.symm.trans hok

end RowTyping.Infer
