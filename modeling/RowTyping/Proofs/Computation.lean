/-!
# Successful computations

What it takes for a computation with state and failure to succeed, one lemma for each way to build
one.

`InStep` relates two computations: from related states both succeed, with related results and
states, or both fail, with related errors. `Commutes` says that a computation depends on no more of
its state than a view of it shows.
-/

namespace RowTyping

variable {ε σ α β : Type} {st st' : σ}

/-- A sequence succeeds when both parts do. -/
theorem bind_eq_ok {x : EStateM ε σ α} {g : α → EStateM ε σ β} {b : β} :
    (x >>= g) st = .ok b st' ↔ ∃ a st₁, x st = .ok a st₁ ∧ g a st₁ = .ok b st' := by
  change EStateM.bind x g st = _ ↔ _
  rcases hx : x st with ⟨a, st₁⟩ | ⟨e, st₁⟩
  · simp only [EStateM.bind, hx, EStateM.Result.ok.injEq]
    constructor
    · exact fun h => ⟨a, st₁, ⟨rfl, rfl⟩, h⟩
    · rintro ⟨_, _, ⟨rfl, rfl⟩, h⟩
      exact h
  · simp [EStateM.bind, hx]

theorem bind_of_ok {x : EStateM ε σ α} {g : α → EStateM ε σ β} {a : α} (h : x st = .ok a st') :
    (x >>= g) st = g a st' := by
  change EStateM.bind x g st = _
  rw [EStateM.bind, h]

theorem bind_of_error {x : EStateM ε σ α} {g : α → EStateM ε σ β} {e : ε}
    (h : x st = .error e st') :
    (x >>= g) st = .error e st' := by
  change EStateM.bind x g st = _
  rw [EStateM.bind, h]

theorem tryCatch_of_ok {x : EStateM ε σ α} {handle : ε → EStateM ε σ α} {a : α}
    (h : x st = .ok a st') :
    (tryCatch x handle) st = .ok a st' := by
  change EStateM.tryCatch x handle st = _
  delta EStateM.tryCatch
  simp only [h]

theorem tryCatch_of_error {x : EStateM ε σ α} {handle : ε → EStateM ε σ α} {e : ε}
    (h : x st = .error e st') : (tryCatch x handle) st = handle e st' := by
  change EStateM.tryCatch x handle st = _
  delta EStateM.tryCatch
  simp only [h]
  rfl

theorem pure_eq_ok {a b : α} : (pure a : EStateM ε σ α) st = .ok b st' ↔ a = b ∧ st = st' := by
  change EStateM.Result.ok a st = _ ↔ _
  rw [EStateM.Result.ok.injEq]

theorem get_eq_ok {b : σ} : (get : EStateM ε σ σ) st = .ok b st' ↔ st = b ∧ st = st' := by
  change EStateM.Result.ok st st = _ ↔ _
  rw [EStateM.Result.ok.injEq]

theorem set_eq_ok {s : σ} {u : PUnit} :
    (set s : EStateM ε σ PUnit) st = .ok u st' ↔ s = st' := by
  change EStateM.Result.ok PUnit.unit s = _ ↔ _
  simp

theorem modify_eq_ok {f : σ → σ} {u : PUnit} :
    (modify f : EStateM ε σ PUnit) st = .ok u st' ↔ f st = st' := by
  change EStateM.Result.ok PUnit.unit (f st) = _ ↔ _
  simp

theorem modifyGet_eq_ok {f : σ → α × σ} {b : α} :
    (modifyGet f : EStateM ε σ α) st = .ok b st' ↔ f st = (b, st') := by
  change EStateM.Result.ok (f st).1 (f st).2 = _ ↔ _
  rw [EStateM.Result.ok.injEq, Prod.ext_iff]

theorem throw_eq_ok {e : ε} {b : α} : (throw e : EStateM ε σ α) st = .ok b st' ↔ False := by
  change EStateM.Result.error e st = _ ↔ _
  simp

/-- A computation with a handler succeeds by itself or by the handler. -/
theorem of_tryCatch_eq_ok {x : EStateM ε σ α} {handle : ε → EStateM ε σ α} {b : α}
    (h : (tryCatch x handle) st = .ok b st') :
    x st = .ok b st' ∨ ∃ e st₁, handle e st₁ = .ok b st' := by
  rcases hx : x st with ⟨a, st₁⟩ | ⟨e, st₁⟩
  · exact .inl ((tryCatch_of_ok hx).symm.trans h)
  · exact .inr ⟨e, st₁, (tryCatch_of_error hx).symm.trans h⟩

theorem ofExcept_eq_ok {x : Except ε α} :
    (ofExcept x : EStateM ε σ α) st = .ok a st' ↔ x = .ok a ∧ st = st' := by
  cases x with
  | error e => simp [ofExcept, throw_eq_ok]
  | ok b => simp [ofExcept, pure_eq_ok]

/-- A computation with a result succeeds. -/
theorem eq_ok_of_run' {x : EStateM ε σ α} (h : x.run' st = some a) : ∃ st', x st = .ok a st' := by
  unfold EStateM.run' EStateM.run at h
  rcases hx : x st with ⟨b, st'⟩ | ⟨e, st'⟩
  · rw [hx] at h
    exact ⟨st', by rw [Option.some.inj h]⟩
  · rw [hx] at h
    cases h

theorem exists_eq_ok {x : EStateM ε σ α} (h : (x.run' st).isSome) : ∃ a st', x st = .ok a st' := by
  obtain ⟨a, ha⟩ := Option.isSome_iff_exists.mp h
  exact ⟨a, eq_ok_of_run' ha⟩

/-! ## Computations in step -/

/-- Both results are successes, with values related by `R` and states related by `Q`, or both are
failures, with errors related by `E`. -/
inductive SameOutcome {ε ε' σ σ' α β : Type} (E : ε → ε' → Prop) (R : α → β → Prop)
    (Q : σ → σ' → Prop) : EStateM.Result ε σ α → EStateM.Result ε' σ' β → Prop
  | ok {a : α} {b : β} {st : σ} {st' : σ'} (hab : R a b) (hst : Q st st') :
    SameOutcome E R Q (.ok a st) (.ok b st')
  | error {e : ε} {e' : ε'} {st : σ} {st' : σ'} (he : E e e') :
    SameOutcome E R Q (.error e st) (.error e' st')

/-- Both are values, related by `R`, or both are errors, related by `E`. -/
inductive ExceptRel {ε ε' α β : Type} (E : ε → ε' → Prop) (R : α → β → Prop) :
    Except ε α → Except ε' β → Prop
  | ok {a : α} {b : β} (hab : R a b) : ExceptRel E R (.ok a) (.ok b)
  | error {e : ε} {e' : ε'} (he : E e e') : ExceptRel E R (.error e) (.error e')

theorem ExceptRel.bind {ε ε' α β α₁ β₁ : Type} {E : ε → ε' → Prop} {R : α → β → Prop}
    {T : α₁ → β₁ → Prop} {x : Except ε α} {y : Except ε' β} {f : α → Except ε α₁}
    {g : β → Except ε' β₁} (h : ExceptRel E R x y)
    (hfg : ∀ {a b}, R a b → ExceptRel E T (f a) (g b)) :
    ExceptRel E T (x >>= f) (y >>= g) := by
  cases h with
  | ok hab => exact hfg hab
  | error he => exact .error he

theorem SameOutcome.imp {ε ε' σ σ' α β : Type} {E : ε → ε' → Prop} {R R₁ : α → β → Prop}
    {Q Q₁ : σ → σ' → Prop} {r : EStateM.Result ε σ α} {r' : EStateM.Result ε' σ' β}
    (h : SameOutcome E R Q r r') (hR : ∀ {a b}, R a b → R₁ a b)
    (hQ : ∀ {st st'}, Q st st' → Q₁ st st') : SameOutcome E R₁ Q₁ r r' := by
  cases h with
  | ok hab hst => exact .ok (hR hab) (hQ hst)
  | error he => exact .error he

/-- What follows a step with the same outcome has the same outcome, if it has after success. -/
theorem SameOutcome.bind {ε ε' σ σ' α β α₁ β₁ : Type} {E : ε → ε' → Prop} {R : α → β → Prop}
    {T : α₁ → β₁ → Prop} {Q S : σ → σ' → Prop} {x : EStateM ε σ α} {y : EStateM ε' σ' β}
    {f : α → EStateM ε σ α₁} {g : β → EStateM ε' σ' β₁} {st : σ} {st' : σ'}
    (h : SameOutcome E R Q (x st) (y st'))
    (hfg : ∀ {a b st₁ st₁'}, x st = .ok a st₁ → y st' = .ok b st₁' → R a b → Q st₁ st₁' →
      SameOutcome E T S (f a st₁) (g b st₁')) :
    SameOutcome E T S ((x >>= f) st) ((y >>= g) st') := by
  change SameOutcome E T S (EStateM.bind x f st) (EStateM.bind y g st')
  unfold EStateM.bind
  generalize hx : x st = r, hy : y st' = r' at h
  cases h with
  | ok hab hst₁ => exact hfg hx hy hab hst₁
  | error he => exact .error he

/-- From states related by `P`, both computations succeed, with results related by `R` and states
related by `Q`, or both fail, with errors related by `E`. -/
def InStep {ε ε' σ σ' α β : Type} (E : ε → ε' → Prop) (P : σ → σ' → Prop) (x : EStateM ε σ α)
    (y : EStateM ε' σ' β) (R : α → β → Prop) (Q : σ → σ' → Prop) : Prop :=
  ∀ ⦃st st'⦄, P st st' → SameOutcome E R Q (x st) (y st')

namespace InStep

variable {ε ε' σ σ' α β α₁ β₁ : Type} {E : ε → ε' → Prop} {P Q S P₁ Q₁ : σ → σ' → Prop}
  {R R₁ : α → β → Prop} {T : α₁ → β₁ → Prop} {x : EStateM ε σ α} {y : EStateM ε' σ' β}

theorem pure {a : α} {b : β} (h : R a b) :
    InStep E P (Pure.pure a : EStateM ε σ α) (Pure.pure b : EStateM ε' σ' β) R P :=
  fun _ _ hst => .ok h hst

theorem bind (h : InStep E P x y R Q) {f : α → EStateM ε σ α₁} {g : β → EStateM ε' σ' β₁}
    (hfg : ∀ a b, R a b → InStep E Q (f a) (g b) T S) : InStep E P (x >>= f) (y >>= g) T S := by
  intro st st' hst
  exact (h hst).bind fun _ _ hab hst₁ => hfg _ _ hab hst₁

theorem throw {e : ε} {e' : ε'} (h : E e e') :
    InStep E P (MonadExcept.throw e : EStateM ε σ α) (MonadExcept.throw e' : EStateM ε' σ' β) R Q :=
  fun _ _ _ => .error h

theorem throw_bind {e : ε} {e' : ε'} {f : α₁ → EStateM ε σ α} {g : β₁ → EStateM ε' σ' β}
    (h : E e e') :
    InStep E P (MonadExcept.throw e >>= f : EStateM ε σ α)
      (MonadExcept.throw e' >>= g : EStateM ε' σ' β) R Q :=
  throw h

theorem imp (h : InStep E P x y R Q) (hP : ∀ st st', P₁ st st' → P st st')
    (hR : ∀ a b, R a b → R₁ a b) (hQ : ∀ st st', Q st st' → Q₁ st st') :
    InStep E P₁ x y R₁ Q₁ := by
  intro st st' hst
  exact (h (hP st st' hst)).imp (hR _ _) (hQ _ _)

/-- Reading the state first. -/
theorem get_bind {f : σ → EStateM ε σ α} {g : σ' → EStateM ε' σ' β}
    (h : ∀ st st', P st st' → InStep E (fun s s' => s = st ∧ s' = st') (f st) (g st') R Q) :
    InStep E P (get >>= f) (get >>= g) R Q :=
  fun st st' hst => h st st' hst ⟨rfl, rfl⟩

/-- What is in step from related states is in step from two given ones. -/
theorem at_states (h : InStep E P x y R Q) {st : σ} {st' : σ'} (hst : P st st') :
    InStep E (fun s s' => s = st ∧ s' = st') x y R Q :=
  h.imp (by rintro _ _ ⟨rfl, rfl⟩; exact hst) (fun _ _ h => h) fun _ _ h => h

theorem modify {f : σ → σ} {g : σ' → σ'} (h : ∀ st st', P st st' → Q (f st) (g st')) :
    InStep E P (modify f : EStateM ε σ PUnit) (modify g : EStateM ε' σ' PUnit)
      (fun _ _ => True) Q :=
  fun st st' hst => .ok trivial (h st st' hst)

theorem set {s : σ} {s' : σ'} (h : Q s s') :
    InStep E P (MonadState.set s : EStateM ε σ PUnit) (MonadState.set s' : EStateM ε' σ' PUnit)
      (fun _ _ => True) Q :=
  fun _ _ _ => .ok trivial h

theorem modifyGet {f : σ → α × σ} {g : σ' → β × σ'}
    (h : ∀ st st', P st st' → R (f st).1 (g st').1 ∧ Q (f st).2 (g st').2) :
    InStep E P (modifyGet f : EStateM ε σ α) (modifyGet g : EStateM ε' σ' β) R Q := by
  intro st st' hst
  obtain ⟨hR, hQ⟩ := h st st' hst
  exact .ok hR hQ

end InStep

/-! ## Computations up to a view of the state -/

section View

variable {τ : Type} {x : EStateM ε σ α} {f : α → EStateM ε σ β}

/-- The result with a view of the state that is left. -/
def viewed (view : σ → τ) : EStateM.Result ε σ α → EStateM.Result ε τ α
  | .ok a st => .ok a (view st)
  | .error e st => .error e (view st)

/-- What follows need go on alike only from results that the computation has. -/
theorem viewed_bind {view : σ → σ} (h : x (view st) = viewed view (x st))
    (hf : ∀ a st', x st = .ok a st' → f a (view st') = viewed view (f a st')) :
    (x >>= f) (view st) = viewed view ((x >>= f) st) := by
  rcases hx : x st with ⟨a, st₁⟩ | ⟨e, st₁⟩ <;> rw [hx] at h
  · rw [bind_of_ok h, bind_of_ok hx]
    exact hf a st₁ hx
  · rw [bind_of_error h, bind_of_error hx]
    rfl

/-- From what a state looks like, the computation has the same result, and it leaves what the state
that it leaves looks like. -/
def Commutes (view : σ → σ) (x : EStateM ε σ α) : Prop :=
  ∀ st, x (view st) = viewed view (x st)

theorem Commutes.bind {view : σ → σ} (h : Commutes view x) (hf : ∀ a, Commutes view (f a)) :
    Commutes view (x >>= f) :=
  fun st => viewed_bind (h st) fun a st' _ => hf a st'

end View

end RowTyping
