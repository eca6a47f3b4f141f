import RowTyping.Proofs.Computation

/-!
# Computations that may fail

`Ends x st Q E` says how a computation ends from a state: a result satisfies `Q` together with the
state it leaves, and an error satisfies `E`. There is one rule for each way to build a computation.
A failed computation leaves a state, too (`leftState`).
-/

namespace RowTyping

variable {ε σ α β : Type} {st : σ}

theorem except_bind_eq_ok {x : Except ε α} {f : α → Except ε β} {b : β} :
    (x >>= f) = .ok b ↔ ∃ a, x = .ok a ∧ f a = .ok b := by
  cases x <;> simp [bind, Except.bind]

theorem except_bind_eq_error {x : Except ε α} {f : α → Except ε β} {e : ε} :
    (x >>= f) = .error e ↔ x = .error e ∨ ∃ a, x = .ok a ∧ f a = .error e := by
  cases x <;> simp [bind, Except.bind]

/-- From the state, a result satisfies `Q` with the state it leaves, and an error satisfies `E`. -/
def Ends (x : EStateM ε σ α) (st : σ) (Q : α → σ → Prop) (E : ε → Prop) : Prop :=
  match x st with
  | .ok a st' => Q a st'
  | .error e _ => E e

namespace Ends

variable {x : EStateM ε σ α} {f : α → EStateM ε σ β} {Q Q' : α → σ → Prop} {R : β → σ → Prop}
  {E E' : ε → Prop}

theorem ok (h : Ends x st Q E) {a : α} {st' : σ} (hx : x st = .ok a st') : Q a st' := by
  rwa [Ends, hx] at h

theorem error (h : Ends x st Q E) {e : ε} {st' : σ} (hx : x st = .error e st') : E e := by
  rwa [Ends, hx] at h

theorem intro (hok : ∀ a st', x st = .ok a st' → Q a st')
    (herror : ∀ e st', x st = .error e st' → E e) : Ends x st Q E := by
  unfold Ends
  split
  · exact hok _ _ ‹_›
  · exact herror _ _ ‹_›

theorem imp (h : Ends x st Q E) (hQ : ∀ a st', Q a st' → Q' a st') (hE : ∀ e, E e → E' e) :
    Ends x st Q' E' :=
  .intro (fun _ _ hx => hQ _ _ (h.ok hx)) fun _ _ hx => hE _ (h.error hx)

theorem pure {a : α} (h : Q a st) : Ends (Pure.pure a : EStateM ε σ α) st Q E := h

theorem bind (h : Ends x st Q E) (hf : ∀ a st', Q a st' → Ends (f a) st' R E) :
    Ends (x >>= f) st R E := by
  rcases hx : x st with ⟨a, st'⟩ | ⟨e, st'⟩
  · rw [Ends, bind_of_ok hx]
    exact hf a st' (h.ok hx)
  · rw [Ends, bind_of_error hx]
    exact h.error hx

theorem get_bind {f : σ → EStateM ε σ β} (h : Ends (f st) st R E) : Ends (get >>= f) st R E := h

theorem set {st' : σ} {Q : PUnit → σ → Prop} (h : Q ⟨⟩ st') :
    Ends (MonadState.set st' : EStateM ε σ PUnit) st Q E := h

theorem modify {g : σ → σ} {Q : PUnit → σ → Prop} (h : Q ⟨⟩ (g st)) :
    Ends (modify g : EStateM ε σ PUnit) st Q E := h

theorem modifyGet {g : σ → α × σ} (h : Q (g st).1 (g st).2) :
    Ends (modifyGet g : EStateM ε σ α) st Q E := h

theorem throw {e : ε} (h : E e) : Ends (MonadExcept.throw e : EStateM ε σ α) st Q E := h

end Ends

/-- The state that a computation leaves, also if it fails. -/
def leftState : EStateM.Result ε σ α → σ
  | .ok _ st => st
  | .error _ st => st

theorem leftState_viewed {τ : Type} (view : σ → τ) (r : EStateM.Result ε σ α) :
    leftState (viewed view r) = view (leftState r) := by
  cases r <;> rfl

end RowTyping
