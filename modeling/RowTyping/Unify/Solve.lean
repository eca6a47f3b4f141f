import RowTyping.Supply
import RowTyping.Unify.Equation

/-!
# Unification

`Unify.solve` works through a list of resolved equations from left to right. An equation that binds
a variable replaces it in all later equations, so each binding lowers the number of variables still
to be bound, and each other step makes the equations smaller. A failed unification leaves the
caller's substitution as it was; variables drawn and events recorded on the way remain.
-/

namespace RowTyping

/-- Why two types or two rows cannot be unified. -/
inductive UnifyError where
  /-- Two types of different shapes. -/
  | mismatch (expected actual : Ty)
  /-- Two rows that cannot be made equal. -/
  | rowMismatch (expected actual : Row)
  /-- A variable that would have to contain itself. -/
  | occurs (v : TypeVar) (t : Ty)
deriving DecidableEq, Repr, Inhabited

/-- The text of a unification failure. -/
def UnifyError.message : UnifyError → String
  | .mismatch expected actual =>
    let (expected, actual) := expected.renderPair actual
    s!"`{expected}` is not compatible with `{actual}`"
  | .rowMismatch expected actual =>
    let (expected, actual) := expected.renderPair actual
    s!"effects `{expected}` and `{actual}` are not compatible"
  | .occurs v t =>
    s!"`{(Ty.var v).renderCanonical}` occurs in `{t.renderCanonical}`"

/-- The supply that unification draws fresh tails from, and the events recorded so far. -/
structure Unifier where
  /-- The source of fresh variables. -/
  fresh : Fresh
  /-- What has been recorded so far. -/
  events : Array UnifyEvent := #[]
  /-- Whether events are recorded. -/
  isTracing : Bool := false

namespace Unifier

/-- The unifier after an event. -/
def note (u : Unifier) (event : UnifyEvent) : Unifier :=
  if u.isTracing then { u with events := u.events.push event } else u

@[simp]
theorem fresh_note (u : Unifier) (event : UnifyEvent) : (u.note event).fresh = u.fresh := by
  unfold note
  split <;> rfl

end Unifier

/-- A computation that may fail to unify; supply and events survive a failure. -/
abbrev UnifyM := EStateM UnifyError Unifier

namespace Unify

/-- Record an event, if events are recorded. -/
def record (event : UnifyEvent) : UnifyM Unit :=
  modify (·.note event)

/-- Draw an effect variable. -/
def freshEffectVar : UnifyM EffectVar :=
  modifyGet fun u =>
    let (e, fresh) := u.fresh.effectVar
    (e, { u with fresh })

/-- Report rows that cannot be made equal. -/
def conflict (why : RowConflict) (expected actual : Row) : UnifyM Subst := do
  record (.rowConflict why expected actual)
  throw (.rowMismatch expected actual)

/-- Unify two resolved rows. Closed rows must have the same labels. An open row takes over the
labels it lacks through its tail, and two open rows meet in a fresh tail. -/
def solveRows (s : Subst) (expected actual : Row) : UnifyM Subst := do
  if expected = actual then
    return s
  record (.rows expected actual)
  let onlyExpected := expected.labelsNotIn actual
  let onlyActual := actual.labelsNotIn expected
  match expected.tail, actual.tail with
  | none, none =>
    if onlyExpected.isEmpty && onlyActual.isEmpty then return s
    else conflict .closedRowsDiffer expected actual
  | some r, none =>
    if onlyExpected.isEmpty then
      record (.closeTail expected actual r onlyActual.length)
      return s.bindEffect r (.closed onlyActual)
    else conflict .closedRowLacks expected actual
  | none, some r =>
    if onlyActual.isEmpty then
      record (.closeTail expected actual r onlyExpected.length)
      return s.bindEffect r (.closed onlyExpected)
    else conflict .closedRowLacks expected actual
  | some r, some r' =>
    if r = r' then conflict .sharedTail expected actual
    else if onlyExpected.isEmpty && onlyActual.isEmpty then
      record (.joinTails expected actual r r')
      return s.bindEffect r (.ofVar r')
    else
      let tail ← freshEffectVar
      record (.shareTail expected actual r r' tail)
      return (s.bindEffect r (.extensible onlyActual tail)).bindEffect r'
        (.extensible onlyExpected tail)

/-- The variable an equation binds and the type it is bound to: a variable on the left goes
first. -/
def binding? : Ty → Ty → Option (TypeVar × Ty)
  | .var v, t => some (v, t)
  | t, .var v => some (v, t)
  | _, _ => none

theorem binding?_eq_some {a b : Ty} {v : TypeVar} {t : Ty} (h : binding? a b = some (v, t)) :
    a = .var v ∧ b = t ∨ a = t ∧ b = .var v := by
  unfold binding? at h
  split at h <;> simp_all

/-- Solve resolved equations from left to right, extending a substitution. -/
def solve (s : Subst) (eqs : List Equation) : UnifyM Subst :=
  match eqs with
  | [] => pure s
  | .rows a b :: rest => do
    let s' ← solveRows s a b
    solve s' (Equation.resolveAllRows s' rest)
  | .types a b :: rest =>
    if a = b then do
      record (.identical a)
      solve s rest
    else
      match _ : binding? a b with
      | some (v, t) =>
        if _ : v ∈ t.typeOccurrences then do
          record (.occursCheck v t)
          throw (.occurs v t)
        else do
          record (.bind v t)
          solve (s.bindType v t) (Equation.replaceAll v t rest)
      | none =>
        match _ : Equation.decompose? a b with
        | some (shape, parts) => do
          record (.decompose shape a b)
          solve s (parts ++ rest)
        | none => do
          record (.mismatch a b)
          throw (.mismatch a b)
termination_by (Equation.countVars eqs, Equation.totalSize eqs)
decreasing_by
  · have hvars := Nat.le_trans (Equation.countVars_resolveAllRows_le s' rest)
      (Equation.countVars_tail_le (.rows a b) rest)
    have hsize := Equation.totalSize_resolveAllRows_le s' rest
    refine Prod.Lex.right' _ hvars ?_
    simp only [Equation.totalSize, Equation.size]
    omega
  · have hpos := Equation.size_pos (.types a b)
    refine Prod.Lex.right' _ (Equation.countVars_tail_le _ _) ?_
    simp only [Equation.totalSize]
    omega
  · rename_i hb hv
    refine Prod.Lex.left _ _ ?_
    have hsides := binding?_eq_some hb
    refine Equation.countVars_replaceAll_lt hv ?_ ?_ ?_
    · rcases hsides with ⟨rfl, rfl⟩ | ⟨rfl, rfl⟩ <;>
        simp [Equation.typeOccurrences, Equation.mem_typeOccurrences, Ty.occurrences]
    · intro w hw
      rcases hsides with ⟨rfl, rfl⟩ | ⟨rfl, rfl⟩ <;> simp [Equation.typeOccurrences, hw]
    · intro w hw
      rw [List.flatMap_cons]
      exact List.mem_append_right _ hw
  · rename_i hd
    refine Prod.Lex.right' _ (Equation.countVars_decompose_le hd) ?_
    have := Equation.totalSize_decompose_lt hd
    simp only [Equation.totalSize, Equation.totalSize_append, Equation.size]
    omega

/-- Unify two types under a substitution. -/
def types (s : Subst) (expected actual : Ty) : UnifyM Subst :=
  solve s [.types (s.apply expected) (s.apply actual)]

/-- Unify two rows under a substitution. -/
def rows (s : Subst) (expected actual : Row) : UnifyM Subst :=
  solveRows s (s.applyRow expected) (s.applyRow actual)

/-! ## The same by recursion on the types

`types` may as well be read as a recursion: types of one shape are unified by unifying their parts,
one after the other, and each part is resolved again under the bindings found by then. -/

/-- Unify both sides of equations, one equation after the other, each under the substitution reached
by then. -/
def inTurn (s : Subst) : List Equation → UnifyM Subst
  | [] => pure s
  | .types a b :: eqs => do
    let s' ← types s a b
    inTurn s' eqs
  | .rows a b :: eqs => do
    let s' ← rows s a b
    inTurn s' eqs

/-- What unifying two types does, by the unifications it is made of (`types_eq_body`). -/
def body (s : Subst) (expected actual : Ty) : UnifyM Subst :=
  let a := s.apply expected
  let b := s.apply actual
  if a = b then do
    record (.identical a)
    return s
  else
    match binding? a b with
    | some (v, t) =>
      if v ∈ t.typeOccurrences then do
        record (.occursCheck v t)
        throw (.occurs v t)
      else do
        record (.bind v t)
        return s.bindType v t
    | none =>
      match Equation.decompose? a b with
      | some (shape, parts) => do
        record (.decompose shape a b)
        inTurn s parts
      | none => do
        record (.mismatch a b)
        throw (.mismatch a b)

end Unify

end RowTyping
