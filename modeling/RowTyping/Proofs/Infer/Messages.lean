import RowTyping.Infer.Declared
import RowTyping.Proofs.Failure
import RowTyping.Proofs.Infer.Solving

/-!
# Messages about unbound variables

Only one kind of error says that a variable is unbound. All others are told apart from it by the
words their messages begin with (`TypingError.SpeaksPlainly`), and no error of a solved obligation,
of a generalisation or of a signature is of that kind.
-/

namespace RowTyping

/-- The text does not say that the name is unbound. -/
def Spares (n text : String) : Prop :=
  text ≠ s!"unbound variable `{n}`"

variable {n : String}

/-- A text that begins with other letters does not. -/
theorem spares_of_start {text : String}
    (h : text.toList.take 3 ≠ ['u', 'n', 'b'] := by simp [toString]) :
    Spares n text := by
  rintro rfl
  simp [toString] at h

theorem spares_unbound {name : String} (h : name ≠ n) : Spares n s!"unbound variable `{name}`" := by
  intro heq
  have hlist := congrArg String.toList heq
  simp only [String.toList_append, toString, List.append_cancel_left_eq,
    List.append_cancel_right_eq, String.toList_inj] at hlist
  exact h hlist

namespace TypingError

/-- What an error about a number of arguments speaks of is not confused with a variable. -/
def SpeaksPlainly : TypingError → Prop
  | .arity what _ _ _ => ∀ rest, (what ++ rest).toList.take 3 ≠ ['u', 'n', 'b']
  | .unboundVariable _ _ => False
  | _ => True

theorem spares_mismatchMessage (expected actual : Ty) (reason : Reason) :
    Spares n (mismatchMessage expected actual reason) := by
  rw [mismatchMessage]
  rcases expected.renderPair actual with ⟨left, right⟩
  cases reason <;> exact spares_of_start

theorem spares_rowMismatchMessage (expected actual : Row) (reason : Reason) :
    Spares n (rowMismatchMessage expected actual reason) := by
  rw [rowMismatchMessage]
  rcases expected.renderPair actual with ⟨left, right⟩
  cases reason <;> exact spares_of_start

/-- Only an error about an unbound variable says so. -/
theorem SpeaksPlainly.spares {e : TypingError} (h : e.SpeaksPlainly) : Spares n e.message := by
  cases e with
  | mismatch => exact spares_mismatchMessage _ _ _
  | rowMismatch => exact spares_rowMismatchMessage _ _ _
  | unboundVariable => exact h.elim
  | arity what expected actual =>
    let wanted := countOf expected "argument"
    change Spares n s!"{what} expects {wanted} but {suppliedCount actual} supplied"
    refine spares_of_start ?_
    simp only [toString, String.append_assoc]
    exact h _
  | occurs v type =>
    let shown := (Ty.var v).renderPair type
    change Spares n s!"infinite type: `{shown.1}` would have to equal `{shown.2}`"
    exact spares_of_start
  | armMismatch first other =>
    let shown := first.renderPair other
    change Spares n s!"match arms have different types: `{shown.1}` vs `{shown.2}`"
    exact spares_of_start
  | unresolvedTrait traitName type =>
    change Spares n s!"no implementation of `{traitName}` for `{type.renderCanonical}`"
    exact spares_of_start
  | unknownType name =>
    change Spares n s!"unknown type `{name}`"
    exact spares_of_start
  | unknownEffect name =>
    change Spares n s!"unknown effect `{name}`"
    exact spares_of_start
  | unknownConstructor name =>
    change Spares n s!"unknown constructor `{name}`"
    exact spares_of_start
  | kind name expected actual =>
    let wanted := countOf expected "type parameter"
    change Spares n s!"`{name}` takes {wanted} but is used with {actual}"
    exact spares_of_start
  | ambiguousTrait traitName type =>
    change Spares n (s!"ambiguous `{traitName}` requirement on `{type.renderCanonical}`: " ++
      "the type is not determined by the signature")
    exact spares_of_start
  | tooGeneral declared inferred =>
    change Spares n
      (s!"the declared signature is more general than the definition: `{declared}` " ++
      s!"is declared, but the body only has `{inferred}`")
    exact spares_of_start
  | missingGiven requirement =>
    change Spares n s!"the body requires `{requirement}`, which is not listed in `given`"
    exact spares_of_start
  | dependencyFailed dependency =>
    change Spares n s!"depends on `{dependency}`, which failed to type check"
    exact spares_of_start

end TypingError

namespace Infer

/-- An error about a constructor's arguments speaks of it by name. -/
theorem speaksPlainly_constructorArity (name : String) (expected actual : Nat) (span : Span) :
    (TypingError.arity s!"constructor `{name}`" expected actual span).SpeaksPlainly := by
  intro rest
  simp [toString]

/-- An error about a call speaks of what is called. -/
theorem speaksPlainly_calleeName (func : Expr) (expected actual : Nat) (span : Span) :
    (TypingError.arity func.calleeName expected actual span).SpeaksPlainly := by
  intro rest
  cases func <;> simp [Expr.calleeName, toString]

/-- An error about a signature's parameters speaks of the signature. -/
theorem speaksPlainly_signatureArity (name : String) (expected actual : Nat) (span : Span) :
    (TypingError.arity s!"the signature of `{name}`" expected actual span).SpeaksPlainly := by
  intro rest
  simp [toString]

/-- Generalisation fails only because a requirement is ambiguous. -/
theorem speaksPlainly_generalize {t : Ty} {residual : List Obligation} {s : Subst}
    {fixed : FixedVars}
    {hints : VarNames} {e : TypingError} (h : generalize t residual s fixed hints = .error e) :
    e.SpeaksPlainly := by
  simp only [generalize] at h
  split at h
  · cases h
    trivial
  · cases h

theorem speaksPlainly_solve {ts : Traits} {s : Subst} {obs : List Obligation} {e : TypingError}
    (h : ts.solve s obs = .error e) : e.SpeaksPlainly := by
  obtain ⟨_, _, _, -, -, -, rfl⟩ := Traits.solve_eq_error_iff.mp h
  trivial

theorem speaksPlainly_requireAllowed {vars : List TypeVar} {names : VarNames} {allowed : List Given}
    {obs : List Obligation} {e : TypingError}
    (h : requireAllowed vars names allowed obs = .error e) :
    e.SpeaksPlainly := by
  induction obs with
  | nil => cases h
  | cons ob obs ih =>
    rw [requireAllowed] at h
    split at h
    · cases h
      trivial
    · split at h
      · cases h
        trivial
      · exact ih h

end Infer

end RowTyping
