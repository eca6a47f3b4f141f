import RowTyping.Proofs.Computation
import RowTyping.Proofs.Infer.Invariant
import RowTyping.Proofs.Unify.Soundness

/-!
# The operations of the inference monad

One lemma for each operation says what its success means. Operations that only draw variables keep
all bindings (`Infer.Draws`), and so does the use of a scheme, which raises obligations
(`Infer.Raises`). Unifications make both sides equal for every valuation that absorbs the new
substitution, and `Infer.join` gives a row that contains all its arguments.
-/

namespace RowTyping

open List

namespace Infer

open Unify

/-! ## Drawing variables -/

/-- The second state has the bindings and the environment of the first one. -/
structure Preserves (st st' : InferState) : Prop where
  subst : st'.subst = st.subst
  env : st'.env = st.env
  later : st.fresh.Later st'.fresh

/-- The second state differs from the first one by drawn variables and by what is recorded. -/
structure Draws (st st' : InferState) : Prop extends Preserves st st' where
  unsettled : st'.unsettled = st.unsettled

/-- Obligations have been raised, too. -/
structure Raises (st st' : InferState) : Prop extends Preserves st st' where
  raised : ∃ new, st'.unsettled = (st.obligations ++ new, st.pending)

variable {st st' st₁ st₂ : InferState} {t : Ty} {r : Row} {span : Span} {u : Unit} {origin : Origin}
  {rows : List Row}

theorem Preserves.trans (h : Preserves st st₁) (h' : Preserves st₁ st') : Preserves st st' :=
  ⟨h'.subst.trans h.subst, h'.env.trans h.env, h.later.trans h'.later⟩

theorem Draws.refl (st : InferState) : Draws st st := ⟨⟨rfl, rfl, .refl _⟩, rfl⟩

theorem Draws.trans (h : Draws st st₁) (h' : Draws st₁ st') : Draws st st' :=
  ⟨h.toPreserves.trans h'.toPreserves, h'.unsettled.trans h.unsettled⟩

/-- Variables may be drawn before and after obligations are raised. -/
theorem Raises.between (h : Raises st₁ st₂) (h₁ : Draws st st₁) (h₂ : Draws st₂ st') :
    Raises st st' := by
  refine ⟨h₁.toPreserves.trans (h.toPreserves.trans h₂.toPreserves), ?_⟩
  obtain ⟨new, hnew⟩ := h.raised
  obtain ⟨hobligations, hpending⟩ := Prod.mk.inj h₁.unsettled
  exact ⟨new, by rw [h₂.unsettled, hnew, hobligations, hpending]⟩

theorem Preserves.valid (h : Preserves st st') (hst : st.subst.Valid st.fresh) :
    st'.subst.Valid st'.fresh := by
  rw [h.subst]
  exact hst.later h.later

theorem Preserves.stays (h : Preserves st st') (hst : st.subst.Valid st.fresh) {I O : Region → Prop}
    (hO : ∀ P, st.Inside P → I P → O P) : Stays st st' I O where
  env := h.env
  valid := h.valid hst
  later := h.later
  keeps := by
    rw [h.subst]
    exact .refl _
  binds P _ _ x hx := .inl (h.subst ▸ hx)
  inside P hP hI := by
    refine ⟨⟨fun hx => hP.upcoming (h.later.upcoming hx), ?_⟩, hO P hP hI⟩
    rw [h.subst]
    exact hP.closed

theorem Draws.runs (h : Draws st st') (hst : st.subst.Valid st.fresh) {I O : Region → Prop}
    (hO : ∀ P, st.Inside P → I P → O P) : Runs st st' I O :=
  ⟨h.stays hst hO, h.unsettled⟩

section

variable (hd : st.fresh.Distinct)
include hd

theorem freshTypeVar_ok {v : TypeVar} (h : freshTypeVar st = .ok v st') :
    Draws st st' ∧ st.fresh.HandedOut st'.fresh (.type v) := by
  simp only [freshTypeVar, modifyGet_eq_ok, Prod.mk.injEq] at h
  obtain ⟨rfl, rfl⟩ := h
  exact ⟨⟨⟨rfl, rfl, st.fresh.later_typeVar⟩, rfl⟩, hd.handedOut_typeVar⟩

theorem freshEffectVar_ok {e : EffectVar}
    (h : freshEffectVar st = .ok e st') :
    Draws st st' ∧ st.fresh.HandedOut st'.fresh (.effect e) := by
  simp only [freshEffectVar, modifyGet_eq_ok, Prod.mk.injEq] at h
  obtain ⟨rfl, rfl⟩ := h
  exact ⟨⟨⟨rfl, rfl, st.fresh.later_effectVar⟩, rfl⟩, hd.handedOut_effectVar⟩

theorem freshType_ok (h : freshType st = .ok t st') :
    Draws st st' ∧ ∃ v, t = .var v ∧ st.fresh.HandedOut st'.fresh (.type v) := by
  simp only [freshType, bind_eq_ok, pure_eq_ok] at h
  obtain ⟨v, st₁, hv, rfl, rfl⟩ := h
  obtain ⟨hdraws, hout⟩ := freshTypeVar_ok hd hv
  exact ⟨hdraws, v, rfl, hout⟩

theorem freshRow_ok (h : freshRow st = .ok r st') :
    Draws st st' ∧ ∃ e, r = .ofVar e ∧ st.fresh.HandedOut st'.fresh (.effect e) := by
  simp only [freshRow, bind_eq_ok, pure_eq_ok] at h
  obtain ⟨e, st₁, he, rfl, rfl⟩ := h
  obtain ⟨hdraws, hout⟩ := freshEffectVar_ok hd he
  exact ⟨hdraws, e, rfl, hout⟩

theorem freshTypes_ok {α : Type} {as : List α} {ts : List Ty}
    (h : freshTypes as st = .ok ts st') :
    Draws st st' ∧ ts.length = as.length ∧
      ∀ t ∈ ts, ∃ v, t = .var v ∧ st.fresh.HandedOut st'.fresh (.type v) := by
  induction as generalizing st ts with
  | nil =>
    simp only [freshTypes, pure_eq_ok] at h
    obtain ⟨rfl, rfl⟩ := h
    exact ⟨.refl _, rfl, by simp⟩
  | cons a as ih =>
    simp only [freshTypes, bind_eq_ok, pure_eq_ok] at h
    obtain ⟨t, st₁, ht, ts', st₂, hts, rfl, rfl⟩ := h
    obtain ⟨hdraws, v, rfl, hv⟩ := freshType_ok hd ht
    obtain ⟨hdraws', hlength, hall⟩ := ih (hdraws.later.distinct hd) hts
    refine ⟨hdraws.trans hdraws', by simp [hlength], fun t ht => ?_⟩
    rcases mem_cons.mp ht with rfl | ht
    · exact ⟨v, rfl, hv.later hdraws'.later⟩
    · obtain ⟨w, rfl, hw⟩ := hall t ht
      exact ⟨w, rfl, hw.earlier hdraws.later⟩

end

/-- A drawn type is usable from then on. -/
theorem usable_of_handedOut {f f' : Fresh} (h : ∃ v, t = .var v ∧ f.HandedOut f' (.type v)) :
    t.Usable f' := by
  obtain ⟨v, rfl, hv⟩ := h
  exact Ty.usable_var hv.2

/-- A drawn type is over every region with all variables to come. -/
theorem over_of_handedOut {f' : Fresh} {P : Region} (hst : st.Inside P)
    (h : ∃ v, t = .var v ∧ st.fresh.HandedOut f' (.type v)) : t.Over P := by
  obtain ⟨v, rfl, hv⟩ := h
  exact Ty.over_var.mpr (hst.upcoming hv.1)

/-! ## Recording -/

theorem record_ok {rule : InferRule} {subject detail : String}
    (h : record rule subject t detail span st = .ok u st') :
    Draws st st' := by
  simp only [record, modify_eq_ok] at h
  subst h
  exact ⟨⟨st.subst_note _, st.env_note _, (st.fresh_note _).symm ▸ .refl _⟩,
    Prod.ext (st.obligations_note _) (st.pending_note _)⟩

theorem recordCases_ok {cases : PendingCases} (h : recordCases cases st = .ok u st') :
    Preserves st st' := by
  simp only [recordCases, modify_eq_ok] at h
  subst h
  exact ⟨rfl, rfl, .refl _⟩

theorem constrainGivens_ok {s : Subst} {givens : List Given}
    (h : constrainGivens s span givens st = .ok u st') :
    Raises st st' := by
  induction givens generalizing st with
  | nil =>
    simp only [constrainGivens, pure_eq_ok] at h
    obtain ⟨-, rfl⟩ := h
    exact ⟨⟨rfl, rfl, .refl _⟩, [], Prod.ext (append_nil _).symm rfl⟩
  | cons g gs ih =>
    simp only [constrainGivens, constrain, bind_eq_ok, modify_eq_ok] at h
    obtain ⟨-, st₁, rfl, h⟩ := h
    obtain ⟨⟨hsubst, henv, hlater⟩, new, hnew⟩ := ih h
    exact ⟨⟨hsubst, henv, hlater⟩, _, hnew.trans (Prod.ext (append_assoc _ _ _) rfl)⟩

/-! ## Unification -/

theorem runUnify_ok {step : Subst → UnifyM Subst} {explain : Subst → UnifyError → TypingError}
    (h : runUnify step explain st = .ok u st') :
    ∃ s' u', step st.subst st.unifier = .ok s' u' ∧
      st' = { st with subst := s', unifier := u' } := by
  simp only [runUnify, bind_eq_ok, get_eq_ok] at h
  obtain ⟨_, _, ⟨rfl, rfl⟩, h⟩ := h
  rcases hstep : step st.subst st.unifier with ⟨s', u'⟩ | ⟨e, u'⟩
  · simp only [EStateM.run, hstep, set_eq_ok] at h
    exact ⟨s', u', rfl, h.symm⟩
  · -- after a failure the supply is kept and the error is thrown
    simp only [EStateM.run, hstep, bind_eq_ok, throw_eq_ok, and_false, exists_false] at h

/-- A run of unification to the end stays in every region of its equation and makes the equation
hold. -/
private theorem runs_of_steps (eq : Equation) {s' : Subst} {u' : Unifier}
    (hst : st.subst.Valid st.fresh) (hsorted : eq.RowsSorted)
    (hunused : ∀ x ∈ eq.occurrences, ¬ st.fresh.Upcoming x)
    (hsteps : Steps (start st.subst eq st.fresh) ⟨s', [], u'.fresh⟩) :
    Runs st { st with subst := s', unifier := u' } (fun P => ∀ x ∈ eq.occurrences, P x)
        (fun _ => True) ∧ eq.Holds s'.valuation := by
  have hready : Ready st.subst eq st.fresh :=
    ⟨hst.acyclic, hst.sorted, hsorted, hst.distinct,
      fun he => ⟨hst.unmentioned he, fun hx => hunused _ hx he⟩⟩
  obtain ⟨hreach, hholds⟩ := hready.solved hsteps
  -- resolving the equation and drawing tails does not lead out of a region
  have htouches {P : Region} (hclosed : st.subst.ClosedOn P) (heq : ∀ x ∈ eq.occurrences, P x)
      (hdrawn : ∀ x, st.fresh.HandedOut u'.fresh x → P x) {x : Var}
      (hx : (start st.subst eq st.fresh).Touches ⟨s', [], u'.fresh⟩ x) : P x := by
    rcases hx with ⟨eq', heq', hx⟩ | hx
    · obtain rfl := mem_singleton.mp heq'
      obtain ⟨y, hy, hx⟩ := Equation.mem_occurrences_under.mp hx
      exact hst.acyclic.image_over hclosed (heq y hy) hx
    · exact hdrawn x hx
  have hlater : st.fresh.Later u'.fresh := hreach.later
  refine ⟨⟨⟨⟨⟨hreach.valid.acyclic, hreach.valid.substSorted, hreach.valid.distinct,
    fun {x} hx hmentions => ?_⟩, hlater, hreach.grows.keeps, fun P hP heq x hx => ?_,
    fun P hP heq => ?_⟩, rfl⟩, rfl⟩, hholds⟩
  · -- a variable to come is neither in the old bindings nor touched by the run
    rcases hreach.grows.mentions hmentions with hmentions | htouched
    · exact hst.unmentioned (hlater.upcoming hx) hmentions
    · exact htouches (P := fun x => ¬ u'.fresh.Upcoming x)
        (hst.later hlater).closedOn (fun y hy hup => hunused y hy (hlater.upcoming hup))
        (fun y hy => hy.2) htouched hx
  · exact (hreach.grows.binds hx).imp_right
      (htouches hP.closed heq fun y hy => hP.upcoming hy.1)
  · refine ⟨⟨fun hx => hP.upcoming (hlater.upcoming hx), ?_⟩, trivial⟩
    exact hP.closed.grows (hreach.grows.mono (htouches hP.closed heq fun x hx => hP.upcoming hx.1))

/-- Types that have been unified are equal for whatever absorbs the substitution. -/
theorem unify_ok {a b : Ty} (hst : st.subst.Valid st.fresh) (ha : a.Usable st.fresh)
    (hb : b.Usable st.fresh) (h : unify a b origin st = .ok u st') :
    Runs st st' (fun P => a.Over P ∧ b.Over P) (fun _ => True) ∧
      ∀ U : Valuation, U.Absorbs st'.subst → a.under U = b.under U := by
  obtain ⟨s', u', hok, rfl⟩ := runUnify_ok h
  have hrun := runs_of_steps (.types a b) hst
    (fun r hr => (mem_append.mp hr).elim (ha.sorted r) (hb.sorted r))
    (fun x hx => (mem_append.mp hx).elim (ha.drawn x) (hb.drawn x)) (steps_of_types hok)
  refine ⟨hrun.1.imp (fun P hP x hx => (mem_append.mp hx).elim (hP.1 x) (hP.2 x))
    fun _ _ _ _ => trivial, fun U hU => ?_⟩
  have hholds : s'.apply a = s'.apply b := hrun.2
  rw [← Subst.under_apply hU a, hholds, Subst.under_apply hU]

/-- Rows that have been unified are equal for whatever absorbs the substitution. -/
theorem unifyRows_ok {a b : Row} (hst : st.subst.Valid st.fresh) (ha : a.Usable st.fresh)
    (hb : b.Usable st.fresh) (h : unifyRows a b origin st = .ok u st') :
    Runs st st' (fun P => a.Over P ∧ b.Over P) (fun _ => True) ∧
      ∀ U : Valuation, U.Absorbs st'.subst → a.under U = b.under U := by
  obtain ⟨s', u', hok, rfl⟩ := runUnify_ok h
  have hocc {P : Region} (ha : a.Over P) (hb : b.Over P) :
      ∀ x ∈ (Equation.rows a b).occurrences, P x := by
    intro x hx
    simp only [Equation.occurrences, mem_append, Option.mem_toList, Option.map_eq_some_iff]
      at hx
    rcases hx with ⟨e, he, rfl⟩ | ⟨e, he, rfl⟩
    · exact ha e he
    · exact hb e he
  have hrun := runs_of_steps (.rows a b) hst
    (by simpa [Equation.RowsSorted, Equation.rowsOf] using ⟨ha.sorted, hb.sorted⟩)
    (hocc ha.drawn hb.drawn) (steps_of_rows hok)
  refine ⟨hrun.1.imp (fun P hP => hocc hP.1 hP.2) fun _ _ _ _ => trivial, fun U hU => ?_⟩
  have hholds : s'.applyRow a = s'.applyRow b := hrun.2
  rw [← Subst.under_applyRow hU a, hholds, Subst.under_applyRow hU]

/-! ## Effects -/

theorem exists_openRow (r : Row) (st : InferState) : ∃ r' st', openRow r st = .ok r' st' := by
  rcases hclosed : r.isClosed
  · exact ⟨r, st, by rw [openRow, hclosed]; rfl⟩
  · exact ⟨_, _, by rw [openRow, hclosed]; rfl⟩

theorem openRow_cases {r' : Row} (hd : st.fresh.Distinct) (h : openRow r st = .ok r' st') :
    Draws st st' ∧ (r.tail ≠ none ∧ r' = r ∨
      r.tail = none ∧ ∃ e, r' = .extensible r.labels e ∧
        st.fresh.HandedOut st'.fresh (.effect e)) := by
  rcases htail : r.tail with _ | e
  · simp only [openRow, Row.isClosed, htail, Option.isNone_none, if_true, bind_eq_ok,
      pure_eq_ok] at h
    obtain ⟨e, st₁, he, rfl, rfl⟩ := h
    obtain ⟨hdraws, hout⟩ := freshEffectVar_ok hd he
    exact ⟨hdraws, .inr ⟨rfl, e, rfl, hout⟩⟩
  · simp only [openRow, Row.isClosed, htail, Option.isNone_some, Bool.false_eq_true, if_false,
      pure_eq_ok] at h
    obtain ⟨rfl, rfl⟩ := h
    exact ⟨.refl _, .inl ⟨by simp, rfl⟩⟩

/-- An opened row contains the row. -/
theorem openRow_ok {r' : Row} (hd : st.fresh.Distinct) (hr : r.Usable st.fresh)
    (h : openRow r st = .ok r' st') :
    Draws st st' ∧ r'.Usable st'.fresh ∧ (∀ P, st.Inside P → r.Over P → r'.Over P) ∧
      ∀ U : Valuation, r.under U ≤ r'.under U := by
  obtain ⟨hdraws, ⟨-, rfl⟩ | ⟨htail, e, rfl, he⟩⟩ := openRow_cases hd h
  · exact ⟨hdraws, hr.later hdraws.later, fun P _ h => h, fun U => Row.le_refl _⟩
  · have hover {P : Region} (hP : P (.effect e)) : (Row.extensible r.labels e).Over P := by
      intro e' he'
      obtain rfl := Option.some.inj he'
      exact hP
    refine ⟨hdraws, ⟨Row.isSorted_extensible _ _, hover he.2⟩,
      fun P hP _ => hover (hP.upcoming he.1), fun U => ?_⟩
    rw [Row.under_of_tail_none htail]
    refine ⟨fun l hl => ?_, .inl htail⟩
    exact Row.mem_labels_under.mpr (.inl (Row.mem_labels_extensible.mpr hl))

/-- The effects of one row are allowed by the other one. -/
theorem subeffect_ok {sub sup : Row} (hst : st.subst.Valid st.fresh) (hsub : sub.Usable st.fresh)
    (hsup : sup.Usable st.fresh) (h : subeffect sub sup origin st = .ok u st') :
    Runs st st' (fun P => sub.Over P ∧ sup.Over P) (fun _ => True) ∧
      ∀ U : Valuation, U.Absorbs st'.subst → sub.under U ≤ sup.under U := by
  simp only [subeffect, applyRow, bind_eq_ok, get_eq_ok, pure_eq_ok] at h
  obtain ⟨_, _, ⟨_, _, ⟨rfl, rfl⟩, rfl, rfl⟩, opened, st₁, hopen, h⟩ := h
  obtain ⟨hdraws, husable, hover, hle⟩ :=
    openRow_ok hst.distinct (hst.applyRow_usable hsub) hopen
  obtain ⟨hruns, heq⟩ := unifyRows_ok (hdraws.valid hst) (hsup.later hdraws.later) husable h
  have hwhole := (hdraws.runs hst (I := fun P => sub.Over P ∧ sup.Over P)
    (O := opened.Over) fun P hP hI => hover P hP (hst.acyclic.applyRow_over hP.closed hI.1)).trans
    hruns fun P hI hO => ⟨hI.2, hO⟩
  refine ⟨hwhole.imp (fun P h => h) fun _ _ _ _ => trivial, fun U hU => ?_⟩
  -- the opened row contains the smaller one and is equal to the larger one
  have hU₀ : U.Absorbs st.subst := hwhole.absorbs hst hU
  rw [heq U hU, ← Subst.under_applyRow hU₀ sub]
  exact hle U

theorem subeffects_ok {sup : Row} (hst : st.subst.Valid st.fresh)
    (hrows : ∀ r ∈ rows, r.Usable st.fresh)
    (hsup : sup.Usable st.fresh) (h : subeffects sup origin rows st = .ok u st') :
    Runs st st' (fun P => (∀ r ∈ rows, r.Over P) ∧ sup.Over P) (fun _ => True) ∧
      ∀ U : Valuation, U.Absorbs st'.subst → ∀ r ∈ rows, r.under U ≤ sup.under U := by
  induction rows generalizing st with
  | nil =>
    simp only [subeffects, pure_eq_ok] at h
    obtain ⟨-, rfl⟩ := h
    exact ⟨.refl hst fun _ _ => trivial, by simp⟩
  | cons r rows ih =>
    simp only [subeffects, bind_eq_ok] at h
    obtain ⟨_, st₁, h₁, h⟩ := h
    rw [forall_mem_cons] at hrows
    obtain ⟨hruns₁, hle₁⟩ := subeffect_ok hst hrows.1 hsup h₁
    obtain ⟨hruns, hle⟩ := ih hruns₁.valid
      (fun r hr => (hrows.2 r hr).later hruns₁.later) (hsup.later hruns₁.later) h
    have hfirst : Runs st st₁ (fun P => (∀ r' ∈ r :: rows, r'.Over P) ∧ sup.Over P)
        fun _ => True :=
      hruns₁.imp (fun P hI => ⟨hI.1 r (.head _), hI.2⟩) fun _ _ _ _ => trivial
    have hwhole := hfirst.trans hruns fun P hI _ =>
      ⟨fun r' hr' => hI.1 r' (.tail _ hr'), hI.2⟩
    refine ⟨hwhole.imp (fun _ h => h) fun _ _ _ _ => trivial, fun U hU => ?_⟩
    have hU₁ := hruns.absorbs hruns₁.valid hU
    exact forall_mem_cons.mpr ⟨hle₁ U hU₁, hle U hU⟩

theorem isPure_iff : r.isPure = true ↔ r = .pure := by
  obtain ⟨labels, tail⟩ := r
  simp [Row.isPure, Row.pure]

/-- The rows that a join works with are the rows under the substitution, without the pure ones. -/
private theorem mem_kept {s : Subst} {kept : List Row}
    (hkept : (rows.map s.applyRow).filter (!·.isPure) = kept) :
    (∀ r₀ ∈ rows, s.applyRow r₀ = .pure ∨ s.applyRow r₀ ∈ kept) ∧
      ∀ r₁ ∈ kept, ∃ r₀ ∈ rows, s.applyRow r₀ = r₁ := by
  subst hkept
  refine ⟨fun r₀ hr₀ => ?_, fun r₁ hr₁ => mem_map.mp (mem_filter.mp hr₁).1⟩
  by_cases hpure : (s.applyRow r₀).isPure
  · exact .inl (isPure_iff.mp hpure)
  · exact .inr (mem_filter.mpr ⟨mem_map_of_mem hr₀, by simp [hpure]⟩)

/-- The join of rows contains each of them. -/
theorem join_ok (hst : st.subst.Valid st.fresh) (hrows : ∀ r ∈ rows, r.Usable st.fresh)
    (h : join rows origin st = .ok r st') :
    Runs st st' (fun P => ∀ r ∈ rows, r.Over P) r.Over ∧ r.Usable st'.fresh ∧
      ∀ U : Valuation, U.Absorbs st'.subst → ∀ r₀ ∈ rows, r₀.under U ≤ r.under U := by
  simp only [join, bind_eq_ok, get_eq_ok] at h
  obtain ⟨_, _, ⟨rfl, rfl⟩, h⟩ := h
  generalize hkept : ((rows.map st.subst.applyRow).filter (!·.isPure)) = kept at h
  obtain ⟨hmem, hof⟩ := mem_kept hkept
  have hkeptUsable : ∀ r₁ ∈ kept, r₁.Usable st.fresh := by
    intro r₁ hr₁
    obtain ⟨r₀, hr₀, rfl⟩ := hof r₁ hr₁
    exact hst.applyRow_usable (hrows r₀ hr₀)
  have hkeptOver {P : Region} (hP : st.Inside P) (hI : ∀ r ∈ rows, r.Over P) :
      ∀ r₁ ∈ kept, r₁.Over P := by
    intro r₁ hr₁
    obtain ⟨r₀, hr₀, rfl⟩ := hof r₁ hr₁
    exact hst.acyclic.applyRow_over hP.closed (hI r₀ hr₀)
  -- a bound of the rows that are kept bounds the pure ones too
  have hbound {U : Valuation} (hU : U.Absorbs st.subst) {r : Row}
      (hr : ∀ r₁ ∈ kept, r₁.under U ≤ r) {r₀ : Row} (hr₀ : r₀ ∈ rows) : r₀.under U ≤ r := by
    rw [← Subst.under_applyRow hU]
    rcases hmem r₀ hr₀ with hpure | hr₁
    · rw [hpure]
      exact Row.pure_le r
    · exact hr _ hr₁
  rcases kept with _ | ⟨r₁, _ | ⟨r₂, rest⟩⟩
  · obtain ⟨rfl, rfl⟩ := pure_eq_ok.mp h
    exact ⟨.refl hst fun _ _ => Row.over_pure, Row.usable_pure,
      fun U hU r₀ hr₀ => hbound hU (by simp) hr₀⟩
  · obtain ⟨rfl, rfl⟩ := pure_eq_ok.mp h
    refine ⟨(Draws.refl st).runs hst fun P hP hI => hkeptOver hP hI _ (.head _),
      hkeptUsable _ (.head _), fun U hU r₀ hr₀ => hbound hU ?_ hr₀⟩
    intro r₂ hr₂
    rw [mem_singleton.mp hr₂]
  · -- several rows are all made to fit into a fresh one
    simp only [bind_eq_ok, applyRow, get_eq_ok, pure_eq_ok] at h
    obtain ⟨joined, st₁, hfresh, _, st₂, hsub, _, _, ⟨rfl, rfl⟩, rfl, rfl⟩ := h
    obtain ⟨hdraws, e, rfl, he⟩ := freshRow_ok hst.distinct hfresh
    have hjoined : (Row.ofVar e).Usable st₁.fresh := Row.usable_ofVar he.2
    obtain ⟨hruns, hle⟩ := subeffects_ok (hdraws.valid hst)
      (fun r hr => (hkeptUsable r hr).later hdraws.later) hjoined hsub
    have hwhole := (hdraws.runs hst (I := fun P => ∀ r ∈ rows, r.Over P)
      (O := fun P => (∀ r ∈ r₁ :: r₂ :: rest, r.Over P) ∧ (Row.ofVar e).Over P)
      fun P hP hI => ⟨hkeptOver hP hI, Row.over_ofVar.mpr (hP.upcoming he.1)⟩).trans
      hruns fun P _ hO => hO
    refine ⟨⟨⟨⟨hwhole.valid, hwhole.later, hwhole.keeps, hwhole.binds, fun P hP hI => ?_⟩,
      hwhole.env⟩,
        hwhole.unsettled⟩,
      hruns.valid.applyRow_usable (hjoined.later hruns.later), fun U hU r₀ hr₀ => ?_⟩
    · obtain ⟨hP', hO, -⟩ := hwhole.inside P hP hI
      exact ⟨hP', hruns.valid.acyclic.applyRow_over hP'.closed hO.2⟩
    · rw [Subst.under_applyRow hU]
      exact hbound (hwhole.absorbs hst hU) (hle U hU) hr₀

/-- The effects of an expression are the recorded join of the effects of its parts. -/
theorem join_record_ok {rule : InferRule} {subject detail : String} (hst : st.subst.Valid st.fresh)
    (hrows : ∀ r ∈ rows, r.Usable st.fresh) (h : join rows origin st = .ok r st₁)
    (hrecord : record rule subject t detail span st₁ = .ok u st') :
    Runs st st' (fun P => ∀ r ∈ rows, r.Over P) r.Over ∧ r.Usable st'.fresh ∧
      ∀ U : Valuation, U.Absorbs st'.subst → ∀ r₀ ∈ rows, r₀.under U ≤ r.under U := by
  obtain ⟨hruns, hr, hle⟩ := join_ok hst hrows h
  have hrecorded := record_ok hrecord
  have hwhole := hruns.trans (hrecorded.runs hruns.valid fun _ _ h => h) fun P _ hO => hO
  refine ⟨hwhole.imp (fun _ h => h) fun _ _ _ hO => hO.1, hr.later hrecorded.later, fun U hU => ?_⟩
  rw [hrecorded.subst] at hU
  exact hle U hU

end Infer

end RowTyping
