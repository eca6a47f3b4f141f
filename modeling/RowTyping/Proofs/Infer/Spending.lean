import RowTyping.Proofs.Failure
import RowTyping.Proofs.Infer.Invariant
import RowTyping.Proofs.Infer.Stepwise
import RowTyping.Proofs.Pool
import RowTyping.Proofs.Unify.Solves

/-!
# What inference does to its supply

Whether it succeeds or fails, an inference only draws variables from its supply, one after the other
(`Spends`). So supplies that share a pool can be handed on from one inference to the next.
-/

namespace RowTyping

variable {ε σ α β : Type} {supply : σ → Fresh}

/-- The computation only draws from the supply of the state, also if it fails. -/
def Spends (supply : σ → Fresh) (x : EStateM ε σ α) : Prop :=
  ∀ st, (supply st).Reaches (supply (leftState (x st)))

namespace Spends

variable {x : EStateM ε σ α} {f : α → EStateM ε σ β}

theorem pure (a : α) : Spends supply (Pure.pure a : EStateM ε σ α) :=
  fun _ => .refl

theorem throw (e : ε) : Spends supply (MonadExcept.throw e : EStateM ε σ α) :=
  fun _ => .refl

/-- What follows need only draw for results that the computation has. -/
theorem seq (h : Spends supply x) (hf : ∀ a st st', x st = .ok a st' → Spends supply (f a)) :
    Spends supply (x >>= f) := by
  intro st
  have hfirst := h st
  rcases hx : x st with ⟨a, st₁⟩ | ⟨e, st₁⟩
  · rw [hx] at hfirst
    rw [bind_of_ok hx]
    exact hfirst.trans (hf a st st₁ hx st₁)
  · rw [hx] at hfirst
    rw [bind_of_error hx]
    exact hfirst

theorem bind (h : Spends supply x) (hf : ∀ a, Spends supply (f a)) : Spends supply (x >>= f) :=
  h.seq fun a _ _ _ => hf a

theorem modify {g : σ → σ} (h : ∀ st, (supply st).Reaches (supply (g st))) :
    Spends supply (modify g : EStateM ε σ PUnit) :=
  h

theorem modifyGet {g : σ → α × σ} (h : ∀ st, (supply st).Reaches (supply (g st).2)) :
    Spends supply (modifyGet g : EStateM ε σ α) :=
  h

theorem tryCatch {handle : ε → EStateM ε σ α} (h : Spends supply x)
    (hhandle : ∀ e, Spends supply (handle e)) : Spends supply (MonadExcept.tryCatch x handle) := by
  intro st
  have hfirst := h st
  rcases hx : x st with ⟨a, st₁⟩ | ⟨e, st₁⟩
  · rw [hx] at hfirst
    rw [tryCatch_of_ok hx]
    exact hfirst
  · rw [hx] at hfirst
    rw [tryCatch_of_error hx]
    exact hfirst.trans (hhandle e st₁)

/-- What follows after reading the state starts from that state. -/
theorem get_bind {f : σ → EStateM ε σ β}
    (h : ∀ st, (supply st).Reaches (supply (leftState (f st st)))) :
    Spends supply (MonadState.get >>= f) :=
  h

end Spends

/-! ## Unification -/

namespace Unify

theorem Stepwise.spends {α : Type} {x : UnifyM α} (h : Stepwise x) : Spends Unifier.fresh x := by
  induction h with
  | pure a => exact .pure a
  | throw e => exact .throw e
  | bind _ _ ih ihf => exact ih.bind ihf
  | record event => exact .modify fun u => u.fresh_note event ▸ .refl
  | freshEffectVar => exact .modifyGet fun u => u.fresh.reaches_effectVar

end Unify

/-! ## Written types -/

namespace Resolve

theorem Stepwise.spends {α : Type} {x : ResolveM α} (h : Stepwise x) : Spends Resolver.fresh x := by
  induction h with
  | pure a => exact .pure a
  | throw => exact .throw _
  | bind _ _ ih ihf => exact ih.bind ihf
  | typeVar span name =>
    intro r
    rw [typeVar_eq]
    split
    · exact .refl
    · split
      · exact r.fresh.reaches_typeVar
      · exact .refl
  | effectVar span name =>
    intro r
    rw [effectVar_eq]
    split
    · exact .refl
    · split
      · exact r.fresh.reaches_effectVar
      · exact .refl

end Resolve

/-! ## Inference -/

namespace Infer

/-- The computation only draws variables, also if it fails. -/
abbrev OnlyDraws {α : Type} (x : InferM α) : Prop :=
  Spends InferState.fresh x

theorem spends_runUnify {step : Subst → UnifyM Subst} (explain : Subst → UnifyError → TypingError)
    (h : ∀ s, Spends Unifier.fresh (step s)) : OnlyDraws (runUnify step explain) := by
  intro st
  have hstep := h st.subst st.unifier
  rw [runUnify_eq]
  split <;> simp only [*] at hstep <;> exact hstep

theorem spends_resolve (reg : Registry) (written : Spanned TypeExpr) :
    OnlyDraws (resolve reg written) := by
  intro st
  have hsteps : Resolve.Stepwise (Resolve.type reg written.span written.node) := .type written.node
  have htype := hsteps.spends { fresh := st.unifier.fresh, scope := .empty }
  rw [resolve_eq]
  split <;> simp only [*] at htype <;> exact htype

theorem spends_withScope {α : Type} {act : InferM α} (h : OnlyDraws act) :
    OnlyDraws (withScope act) := by
  intro st
  rw [withScope_eq, leftState_viewed]
  exact h { st with env := st.env.push }

/-- No computation of inference does more to its supply than draw from it. -/
theorem Stepwise.onlyDraws {bound binds looks : List String} {α : Type} {x : InferM α}
    (h : Stepwise bound binds looks x) : OnlyDraws x := by
  induction h with
  | pure a => exact .pure a
  | throw => exact .throw _
  | seq _ _ ih ihf => exact ih.seq ihf
  | read _ _ ih => exact .get_bind fun st => ih st st
  | lookup name span hnone hsome _ ih =>
    refine .get_bind fun st => ?_
    rcases hget : st.env.get? name with _ | σ
    · rw [hnone st hget]
      exact .refl
    · rw [hsome st σ hget]
      exact ih σ st
  | @tryCatch _ _ _ handle _ _ ih ihhandle =>
    refine ih.tryCatch fun e => ?_
    by_cases he : handle e = MonadExcept.throw e
    · exact he ▸ .throw e
    · exact ihhandle e he
  | withScope _ ih => exact spends_withScope ih
  | freshTypeVar => exact .modifyGet fun st => st.fresh.reaches_typeVar
  | freshEffectVar => exact .modifyGet fun st => st.fresh.reaches_effectVar
  | unify expected actual origin =>
    exact spends_runUnify _ fun _ => (Unify.Stepwise.solve _ _).spends
  | unifyRows expected actual origin =>
    exact spends_runUnify _ fun _ => (Unify.Stepwise.solveRows _ _ _).spends
  | resolve reg written => exact spends_resolve reg written
  | record rule subject t detail span =>
    exact .modify fun st => (st.fresh_note _).symm ▸ .refl
  | recordCases | constrain | defer | bindName => exact .modify fun _ => .refl
  | takeObligations => exact .modifyGet fun _ => .refl

end Infer

end RowTyping
