import RowTyping.Proofs.Infer.Obligations

/-!
# What an inference keeps on its way

An inference of expressions leads from one state to another (`Infer.Walks`). It leaves the
environment as it was. The patterns of the choices it adds fit what the types of the choices come to
stand for, and these types stay in every region that the inference stays in
(`PendingCases.Settled`). The obligations that are pending in a place it comes to (`Infer.visits`)
are pending at its end, or they have become requirements of local schemes (`Infer.Conserves`).
-/

namespace RowTyping

open List

open Infer

/-! ## Choices -/

/-- The patterns of a choice fit what its type comes to stand for, and its type is over the
region. -/
structure PendingCases.Settled (reg : Registry) (P : Region) (s : Subst) (cases : PendingCases) :
    Prop where
  scrutinee : cases.scrutinee.Over P
  fits : ∀ U : Valuation, U.Absorbs s → ∀ p ∈ cases.patterns,
    ∃ bindings, p.Fits reg (cases.scrutinee.under U) bindings

theorem PendingCases.Settled.mono {reg : Registry} {P : Region} {s s' : Subst}
    {cases : PendingCases}
    (h : cases.Settled reg P s) (hs : ∀ U : Valuation, U.Absorbs s' → U.Absorbs s) :
    cases.Settled reg P s' :=
  ⟨h.scrutinee, fun U hU => h.fits U (hs U hU)⟩

/-- A valid state inside a region whose pending choices all fit their patterns. -/
structure InferState.Settled (reg : Registry) (P : Region) (st : InferState) : Prop where
  valid : st.Valid reg
  inside : st.Inside P
  env : st.env.Over P
  pending : ∀ cases ∈ st.pending, cases.Settled reg P st.subst

namespace Infer

/-! ## Obligations -/

/-- The requirements of the local schemes in the given places are among `G`. -/
def Gathers (G : Given → Prop) (vs : List (Expr × InferState)) : Prop :=
  ∀ v ∈ vs, ∀ σ ∈ v.2.env.locals, ∀ g ∈ σ.givens, G g

/-- From one state to another, what is held stays held, and also what is held after the inferences
in between. -/
structure Conserves (reg : Registry) (V : Valuation) (G : Given → Prop)
    (vs : List (Expr × InferState)) (st st' : InferState) : Prop where
  retains : Retains V G st st'
  visits : ∀ v ∈ vs, ∃ r s', expr reg v.1 v.2 = .ok r s' ∧ Retains V G s' st'

section Conserves

variable {reg : Registry} {V : Valuation} {G : Given → Prop} {vs ws : List (Expr × InferState)}
  {st st₁ st' : InferState}

theorem Conserves.nil (h : Retains V G st st') : Conserves reg V G [] st st' :=
  ⟨h, fun _ hv => (not_mem_nil hv).elim⟩

theorem Conserves.append (h : Conserves reg V G vs st st₁) (h' : Conserves reg V G ws st₁ st') :
    Conserves reg V G (vs ++ ws) st st' := by
  refine ⟨h.retains.trans h'.retains, fun v hv => ?_⟩
  rcases mem_append.mp hv with hv | hv
  · obtain ⟨r, s', hok, hretains⟩ := h.visits v hv
    exact ⟨r, s', hok, hretains.trans h'.retains⟩
  · exact h'.visits v hv

/-- Whatever is raised on the way is pending at the end or a requirement of a local scheme. -/
theorem Conserves.holds (h : Conserves reg V G vs st st') {ob : Obligation}
    (hob : ob ∈ vs.flatMap raisedAt) : Holds V G st' ob.toGiven := by
  obtain ⟨v, hv, hob⟩ := mem_flatMap.mp hob
  obtain ⟨r, s', hok, hretains⟩ := h.visits v hv
  exact hretains _ (.inl ⟨ob, mem_obligations_of_raisedAt hob hok, .refl V _⟩)

end Conserves

/-! ## Both on the way -/

/-- An inference leads from the first state to the second one and comes to the given expressions. -/
structure Walks (reg : Registry) (vs : List (Expr × InferState)) (st st' : InferState)
    (I O : Region → Prop) : Prop extends Stays st st' I O where
  choices : ∀ P, st.Inside P → I P → ∀ cases ∈ st'.pending,
    cases ∈ st.pending ∨ cases.Settled reg P st'.subst
  conserves : ∀ ⦃V G⦄, V.Absorbs st'.subst → Gathers G vs → Conserves reg V G vs st st'

variable {reg : Registry} {vs ws : List (Expr × InferState)} {st st₁ st₂ st' : InferState}
  {I I' O O' : Region → Prop}

theorem Runs.walks (h : Runs st st' I O) : Walks reg [] st st' I O where
  toStays := h.toStays
  choices _ _ _ _ hcases := .inl ((Prod.mk.inj h.unsettled).2 ▸ hcases)
  conserves _ _ _ _ := .nil (retains_of_unsettled h.unsettled)

theorem Raises.walks (h : Raises st st') (hst : st.subst.Valid st.fresh)
    (hO : ∀ P, st.Inside P → I P → O P) : Walks reg [] st st' I O := by
  obtain ⟨new, hnew⟩ := h.raised
  obtain ⟨hobligations, hpending⟩ := Prod.mk.inj hnew
  exact ⟨h.stays hst hO, fun _ _ _ _ hcases => .inl (hpending ▸ hcases), fun _ _ _ _ =>
    .nil (retains_of_subset fun _ hob => hobligations ▸ mem_append_left _ hob)⟩

namespace Walks

theorem trans (h : Walks reg vs st st₁ I O) (h' : Walks reg ws st₁ st₂ I' O')
    (hI : ∀ P, I P → O P → I' P) : Walks reg (vs ++ ws) st st₂ I fun P => O P ∧ O' P where
  toAdvances := h.toAdvances.trans h'.toAdvances hI
  env := h'.env.trans h.env
  choices P hP hIP cases hcases := by
    obtain ⟨hP₁, hO⟩ := h.inside P hP hIP
    rcases h'.choices P hP₁ (hI P hIP hO) cases hcases with hcases | hcases
    · exact (h.choices P hP hIP cases hcases).imp_right (·.mono fun U => h'.absorbs h.valid)
    · exact .inr hcases
  conserves V G hV hG := (h.conserves (h'.absorbs h.valid hV) fun v hv =>
    hG v (mem_append_left _ hv)).append (h'.conserves hV fun v hv => hG v (mem_append_right _ hv))

theorem imp (h : Walks reg vs st st₁ I O) (hI : ∀ P, I' P → I P)
    (hO : ∀ P, st.Inside P → I' P → O P → O' P) : Walks reg vs st st₁ I' O' where
  toAdvances := h.toAdvances.imp hI hO
  env := h.env
  choices P hP hIP := h.choices P hP (hI P hIP)
  conserves := h.conserves

/-- After the last inference nothing more is left to be settled. -/
theorem andThen (h : Walks reg vs st st₁ I O) (h' : Runs st₁ st₂ I' O')
    (hI : ∀ P, I P → O P → I' P) :
    Walks reg vs st st₂ I fun P => O P ∧ O' P :=
  append_nil vs ▸ h.trans h'.walks hI

/-- The inference of an expression together with those of its parts. -/
theorem visit {e : Expr} {r : Typed} (h : Walks reg vs st st' I O)
    (hvisits : Infer.visits reg e st = (e, st) :: vs) (hok : expr reg e st = .ok r st') :
    Walks reg (Infer.visits reg e st) st st' I O where
  toStays := h.toStays
  choices := h.choices
  conserves V G hV hG := by
    rw [hvisits] at hG ⊢
    have hparts := h.conserves hV fun v hv => hG v (.tail _ hv)
    exact ⟨hparts.retains, forall_mem_cons.mpr ⟨⟨r, st', hok, .refl st'⟩, hparts.visits⟩⟩

/-- If all choices at the start fit their patterns, then so do those at the end. -/
theorem settled {P : Region} (h : Walks reg vs st st' I O) (hst : st.Settled reg P) (hI : I P) :
    st'.Settled reg P where
  valid := h.validState hst.valid
  inside := (h.inside P hst.inside hI).1
  env := h.env ▸ hst.env
  pending cases hcases := (h.choices P hst.inside hI cases hcases).elim
    (fun hold => (hst.pending cases hold).mono fun _ => h.absorbs hst.valid.subst) id

end Walks

/-- A choice is left to be settled at the end. -/
theorem walks_recordCases {cases : PendingCases} {u : Unit} (hst : st.subst.Valid st.fresh)
    (h : recordCases cases st = .ok u st') (hO : ∀ P, I P → O P)
    (hcases : ∀ P, st.Inside P → I P → cases.Settled reg P st.subst) : Walks reg [] st st' I O := by
  have hpreserves := recordCases_ok h
  simp only [recordCases, modify_eq_ok] at h
  subst h
  refine ⟨hpreserves.stays hst fun P _ => hO P, fun P hP hI cases hmem => ?_,
    fun _ _ _ _ => .nil (.refl _)⟩
  rcases mem_append.mp hmem with hold | hnew
  · exact .inl hold
  · exact .inr (mem_singleton.mp hnew ▸ hcases P hP hI)

end Infer

end RowTyping
