import RowTyping.Check.State
import RowTyping.Coverage

/-!
# Checking bindings

Definitions that refer to each other are inferred together: each has one type until all bodies are
done, and then they are generalised. A definition with a declared scheme is checked on its own.
Either way the result is an `Outcome`, and every inference draws its variables from a supply of its
own.
-/

namespace RowTyping

/-- The result of checking a binding or several together. -/
structure Outcome where
  /-- The schemes found, with the places of the definitions. -/
  schemes : List (String × Scheme × Span) := []
  /-- The bindings that failed. -/
  failures : List (String × TypingError) := []
  /-- Choices by patterns that leave out values. -/
  warnings : List Diagnostic := []
  /-- The obligations that implementations met. -/
  resolutions : List (String × Resolution) := []
  /-- What happened. -/
  events : BindingEvents

namespace InferState

/-- What happened during an inference. -/
def bindingEvents (st : InferState) (binding : String) : BindingEvents :=
  { binding, unify := st.unifier.events, infer := st.events }

end InferState

/-- The warning for a choice by patterns that leaves out values. -/
def PendingCases.warning? (reg : Registry) (s : Subst) (binding : String) (cases : PendingCases) :
    Option Diagnostic :=
  match Coverage.missingPatterns reg.dataTypes (s.apply cases.scrutinee) cases.patterns with
  | [] => none
  | missing =>
    let listed := ", ".intercalate (missing.map fun w => s!"`{w.render}`")
    some {
      severity := .warning
      category := .nonExhaustive
      message := s!"non-exhaustive match: missing {listed}"
      binding := some binding
      location := cases.span.inSource?
      help := some Category.nonExhaustive.fix }

namespace Component

/-- An error and the position of the member it arose in. -/
structure Blame where
  /-- The position of the member. -/
  member : Nat
  /-- The error. -/
  error : TypingError

/-- A member of a component after its body was inferred. -/
structure Member where
  /-- The definition. -/
  definition : Definition
  /-- Its type. -/
  type : Ty
  /-- The obligations its body raised. -/
  obligations : List Obligation
  /-- The choices by patterns in its body. -/
  pending : List PendingCases
deriving Inhabited

/-- Infer a definition and make its type that of its recursive uses. A value must have no
effects. -/
def inferBody (reg : Registry) (d : Definition) (t : Ty) : InferM Unit := do
  let typed ← Infer.definition reg d
  if d.params.isEmpty then
    Infer.unifyRows .pure typed.effects ⟨d.body.span, .topLevelValue⟩
  Infer.unify t typed.type ⟨d.span, .recursion⟩

/-- Take the obligations and the choices by patterns of the body just inferred. -/
def takeMember (d : Definition) (t : Ty) : InferM Member :=
  modifyGet fun st =>
    ({ definition := d, type := t, obligations := st.obligations, pending := st.pending },
      { st with obligations := [], pending := [] })

/-- Infer the bodies of members from a position on. -/
def inferBodies (reg : Registry) : Nat → List (Definition × Ty) →
    EStateM Blame InferState (List Member)
  | _, [] => return []
  | k, (d, t) :: rest => do
    let member ← fun st =>
      match (inferBody reg d t *> takeMember d t).run st with
      | .ok m st => .ok m st
      | .error e st => .error ⟨k, e⟩ st
    return member :: (← inferBodies reg (k + 1) rest)

/-- Take a step for each member from a position on. The first member for which it fails is to
blame. -/
def forEach {α : Type} (step : Nat → Member → Except TypingError α) :
    Nat → List Member → Except Blame (List α)
  | _, [] => .ok []
  | k, m :: ms =>
    match step k m with
    | .ok a => return a :: (← forEach step (k + 1) ms)
    | .error e => .error ⟨k, e⟩

/-- Solve the obligations of members. -/
def solveAll (reg : Registry) (s : Subst) : List Member → Except Blame (List Solved) :=
  forEach (fun _ m => reg.traits.solve s m.obligations) 0

/-- The obligations a member's scheme requires: its own, and those of others that its type can
express. -/
def relevant (residual : List (List Obligation)) (k : Nat) (t : Ty) : List Obligation :=
  let vars := t.typeVars
  let others := residual.eraseIdx k
  residual.getD k [] ++
    others.flatten.filter fun ob => ob.type.typeVars.all (vars.contains ·)

/-- Generalise the type of the member at a position. -/
def generalizeMember (st : InferState) (residual : List (List Obligation)) (k : Nat) (m : Member) :
    Except TypingError (String × Scheme × Span) := do
  let obs := relevant residual k (st.subst.apply m.type)
  let (σ, _) ← generalize m.type obs st.subst {} st.names
  return (m.definition.name.node, σ, m.definition.span)

/-- Generalise the types of members. -/
def generalizeAll (st : InferState) (residual : List (List Obligation)) :
    List Member → Except Blame (List (String × Scheme × Span)) :=
  forEach (generalizeMember st residual) 0

/-- Give the members of a component fresh types and bind their names to them. -/
def bindMembers : List Definition → InferM (List (Definition × Ty))
  | ds => do
    let types ← Infer.freshTypes ds
    let members := ds.zip types
    modify fun st =>
      { st with
        env := members.foldl (fun env (d, t) => env.bind d.name.node (.mono t)) st.env.push }
    return members

/-- Solve and generalise the members whose bodies are inferred. -/
def conclude (reg : Registry) (st : InferState) (events : BindingEvents) (members : List Member) :
    Except Blame Outcome := do
  let solved ← solveAll reg st.subst members
  let schemes ← generalizeAll st (solved.map (·.residual)) members
  return {
    schemes
    warnings := members.flatMap fun m =>
      m.pending.filterMap (·.warning? reg st.subst m.definition.name.node)
    resolutions := (members.zip solved).flatMap fun (m, s) =>
      s.resolved.map (m.definition.name.node, ·)
    events }

/-- The outcome when a member failed: all others fail because of it. -/
def failure (ds : List Definition) (events : BindingEvents) (b : Blame) : Outcome :=
  let culprit := (ds[b.member]?).elim "" (·.name.node)
  let others := (ds.eraseIdx b.member).map fun d =>
    (d.name.node, TypingError.dependencyFailed culprit d.name.span)
  { failures := (culprit, b.error) :: others, events }

/-- Infer the members of a component together. -/
def infer (reg : Registry) (env : Env) (pool : Pool) (ds : List Definition) : Outcome × Pool :=
  let label := ", ".intercalate (ds.map (·.name.node))
  let start := InferState.start { supply := .pooled, pool } env
  let run : EStateM Blame InferState (List Member) := fun st =>
    match (bindMembers ds).run st with
    | .ok members st => inferBodies reg 0 members st
    | .error e st => .error ⟨0, e⟩ st
  match run start with
  | .error b st => (failure ds (st.bindingEvents label) b, st.unifier.fresh.pool)
  | .ok members st =>
    let events := st.bindingEvents label
    match conclude reg st events members with
    | .ok outcome => (outcome, st.unifier.fresh.pool)
    | .error b => (failure ds events b, st.unifier.fresh.pool)

end Component

/-- Check a definition against its declared scheme. -/
def DeclaredTask.check (reg : Registry) (env : Env) (pool : Pool) (task : DeclaredTask) :
    Outcome × Pool :=
  let start := InferState.start { supply := .pooled, pool } env
  match (Infer.checkDeclared reg task.definition task.scheme task.allowed).run start with
  | .ok resolved st =>
    ({ schemes := if task.isReported then [(task.label, task.scheme, task.definition.span)] else []
       warnings := st.pending.filterMap (·.warning? reg st.subst task.label)
       resolutions := resolved.map (task.label, ·)
       events := st.bindingEvents task.label },
      st.unifier.fresh.pool)
  | .error e st =>
    ({ failures := [(task.label, e)], events := st.bindingEvents task.label },
      st.unifier.fresh.pool)

end RowTyping
