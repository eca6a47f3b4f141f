import RowTyping.Proofs.Infer.Scoping
import RowTyping.Proofs.Unify.Solves

/-!
# Inference does not depend on what it records

Whether events are recorded is a flag of the unifier, and recorded events are kept in the state. A
state without both is `untraced`. From an untraced state, unification, the resolution of written
types and inference have the same result and draw the same variables, and they leave an untraced
state.
-/

namespace RowTyping

/-- The pool of a pass that records nothing. -/
def Pool.untraced (pool : Pool) : Pool :=
  { pool with isTracing := false }

/-- The supply with the pool of a pass that records nothing. -/
def Fresh.untraced (f : Fresh) : Fresh :=
  { f with pool := f.pool.untraced }

/-- The unifier without what it has recorded. -/
def Unifier.untraced (u : Unifier) : Unifier :=
  { fresh := u.fresh.untraced }

/-- The resolver of a pass that records nothing. -/
def Resolver.untraced (r : Resolver) : Resolver :=
  { r with fresh := r.fresh.untraced }

/-- The state without what has been recorded. -/
def InferState.untraced (st : InferState) : InferState :=
  { st with unifier := st.unifier.untraced, events := #[] }

theorem Unify.Stepwise.untraced {α : Type} {x : UnifyM α} (h : Stepwise x) :
    Commutes Unifier.untraced x := by
  refine h.commutes (fun event u => ?_) fun u => ?_
  · change EStateM.Result.ok () u.untraced = .ok () (u.note event).untraced
    rw [Unifier.untraced, Unifier.untraced, u.fresh_note]
  · rfl

theorem Resolve.Stepwise.untraced {α : Type} {x : ResolveM α} (h : Stepwise x) :
    Commutes Resolver.untraced x := by
  induction h with
  | pure | throw => exact fun _ => rfl
  | bind _ _ ih ihf => exact ih.bind ihf
  | typeVar span name =>
    rintro ⟨f, scope⟩
    rw [typeVar_eq, typeVar_eq]
    dsimp only [Resolver.untraced]
    cases scope.type? name with
    | some v => rfl
    | none => by_cases hopen : scope.isOpen <;> simp only [hopen] <;> rfl
  | effectVar span name =>
    rintro ⟨f, scope⟩
    rw [effectVar_eq, effectVar_eq]
    dsimp only [Resolver.untraced]
    cases scope.effect? name with
    | some e => rfl
    | none => by_cases hopen : scope.isOpen <;> simp only [hopen] <;> rfl

namespace Infer

theorem untraced_runUnify {step : Subst → UnifyM Subst} (explain : Subst → UnifyError → TypingError)
    (h : ∀ s, Commutes Unifier.untraced (step s)) :
    Commutes InferState.untraced (runUnify step explain) := by
  intro st
  have hstep : step st.untraced.subst st.untraced.unifier = _ := h st.subst st.unifier
  rw [runUnify_eq, runUnify_eq, hstep]
  cases step st.subst st.unifier <;> rfl

theorem unnoticed_untraced : Unnoticed InferState.untraced where
  subst _ := rfl
  names _ := rfl
  scopes _ := rfl
  push _ := rfl
  pop _ := rfl
  freshTypeVar _ := rfl
  freshEffectVar _ := rfl
  unify _ _ _ := untraced_runUnify _ fun s => (Unify.Stepwise.solve s _).untraced
  unifyRows _ _ _ := untraced_runUnify _ fun s => (Unify.Stepwise.solveRows s _ _).untraced
  resolve reg written st := by
    have hsteps : Resolve.Stepwise (Resolve.type reg written.span written.node) :=
      .type written.node
    have hresolve : Resolve.type reg written.span written.node
      { fresh := st.untraced.unifier.fresh, scope := .empty } = _ :=
        hsteps.untraced ⟨st.unifier.fresh, .empty⟩
    rw [resolve_eq, resolve_eq, hresolve]
    cases Resolve.type reg written.span written.node
      { fresh := st.unifier.fresh, scope := .empty } <;> rfl
  record _ _ _ _ _ st := by
    change EStateM.Result.ok () st.untraced = .ok () (st.note _).untraced
    rw [InferState.note]
    split <;> rfl
  recordCases _ _ := rfl
  constrain _ _ _ _ := rfl
  defer _ _ := rfl
  takeObligations _ := rfl
  bindName _ _ _ := rfl

/-- No computation of inference depends on what is recorded. -/
theorem Stepwise.untraced {binds looks : List String} {α : Type} {x : InferM α}
    (h : Stepwise [] binds looks x) :
    Commutes InferState.untraced x :=
  fun _ => h.commutes unnoticed_untraced .refl fun _ _ _ _ => rfl

end Infer

end RowTyping
