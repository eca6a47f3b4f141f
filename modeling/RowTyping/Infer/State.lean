import RowTyping.Infer.Event
import RowTyping.Infer.Generalize
import RowTyping.Infer.Resolve
import RowTyping.Unify.Solve

/-!
# The inference monad

Inference threads one state: the supply of variables, the substitution found so far, pending
obligations, the environment and what has been recorded. A failed step keeps the substitution it
started with; all else that happened before the failure remains.
-/

namespace RowTyping

/-- A choice by patterns whose coverage is still to be checked. -/
structure PendingCases where
  /-- The type of the value that is looked at. -/
  scrutinee : Ty
  /-- The patterns of the arms. -/
  patterns : List Pattern
  /-- Where the choice stands. -/
  span : Span
deriving Repr, Inhabited

/-- The state of an inference. -/
structure InferState where
  /-- The source of fresh variables and the events of unification. -/
  unifier : Unifier
  /-- What the variables stand for so far. -/
  subst : Subst := .empty
  /-- The obligations that are not solved yet, in the order they arose. -/
  obligations : List Obligation := []
  /-- The names that written types gave to variables. -/
  names : VarNames := {}
  /-- The choices by patterns whose coverage is to be checked. -/
  pending : List PendingCases := []
  /-- The rules used so far. -/
  events : Array InferEvent := #[]
  /-- The types of names. -/
  env : Env := {}

namespace InferState

/-- The state before an inference. -/
def start (fresh : Fresh) (env : Env) : InferState :=
  { unifier := { fresh, isTracing := fresh.pool.isTracing }, env }

/-- The state after the use of a rule. -/
def note (st : InferState) (event : InferEvent) : InferState :=
  if st.unifier.isTracing then { st with events := st.events.push event } else st

@[simp]
theorem unifier_note (st : InferState) (event : InferEvent) :
    (st.note event).unifier = st.unifier := by
  unfold note
  split <;> rfl

@[simp]
theorem subst_note (st : InferState) (event : InferEvent) : (st.note event).subst = st.subst := by
  unfold note
  split <;> rfl

@[simp]
theorem obligations_note (st : InferState) (event : InferEvent) :
    (st.note event).obligations = st.obligations := by
  unfold note
  split <;> rfl

@[simp]
theorem names_note (st : InferState) (event : InferEvent) : (st.note event).names = st.names := by
  unfold note
  split <;> rfl

@[simp]
theorem pending_note (st : InferState) (event : InferEvent) :
    (st.note event).pending = st.pending := by
  unfold note
  split <;> rfl

@[simp]
theorem env_note (st : InferState) (event : InferEvent) : (st.note event).env = st.env := by
  unfold note
  split <;> rfl

end InferState

/-- A computation that infers types; the state survives a failure. -/
abbrev InferM := EStateM TypingError InferState

namespace Infer

/-- Draw a type variable. -/
def freshTypeVar : InferM TypeVar :=
  modifyGet fun st =>
    let (v, fresh) := st.unifier.fresh.typeVar
    (v, { st with unifier := { st.unifier with fresh } })

/-- Draw an effect variable. -/
def freshEffectVar : InferM EffectVar :=
  modifyGet fun st =>
    let (e, fresh) := st.unifier.fresh.effectVar
    (e, { st with unifier := { st.unifier with fresh } })

/-- A fresh type variable as a type. -/
def freshType : InferM Ty :=
  return .var (← freshTypeVar)

/-- As many fresh types as a list has elements. -/
def freshTypes {α : Type} : List α → InferM (List Ty)
  | [] => return []
  | _ :: as => do
    let t ← freshType
    return t :: (← freshTypes as)

/-- A row that is a fresh effect variable. -/
def freshRow : InferM Row :=
  return .ofVar (← freshEffectVar)

/-- The type as it stands under the substitution found so far. -/
def apply (t : Ty) : InferM Ty :=
  return (← get).subst.apply t

/-- The row as it stands under the substitution found so far. -/
def applyRow (r : Row) : InferM Row :=
  return (← get).subst.applyRow r

/-- Record the use of a rule, if events are recorded. -/
def record (rule : InferRule) (subject : String) (t : Ty) (detail : String) (span : Span) :
    InferM Unit :=
  modify fun st => st.note ⟨rule, subject, st.subst.apply t, detail, span⟩

/-- Run a unification. A failure keeps the substitution and is explained by `explain`. -/
def runUnify (step : Subst → UnifyM Subst) (explain : Subst → UnifyError → TypingError) :
    InferM Unit := do
  let st ← get
  match (step st.subst).run st.unifier with
  | .ok subst unifier => set { st with subst, unifier }
  | .error e unifier =>
    set { st with unifier }
    throw (explain st.subst e)

/-- The typing error for two types that do not unify. It tells the innermost conflict if that is not
the whole of both types. -/
def explainTypes (expected actual : Ty) (origin : Origin) (s : Subst) (e : UnifyError) :
    TypingError :=
  match e with
  | .occurs v t => .occurs v t origin.span
  | .mismatch _ _ | .rowMismatch _ _ =>
    let expected := s.apply expected
    let actual := s.apply actual
    let detail := if e = .mismatch expected actual then none else some e.message
    .mismatch expected actual origin.reason detail origin.span

/-- Make two types equal. -/
def unify (expected actual : Ty) (origin : Origin) : InferM Unit :=
  runUnify (Unify.types · expected actual) (explainTypes expected actual origin)

/-- Make two rows equal. -/
def unifyRows (expected actual : Row) (origin : Origin) : InferM Unit :=
  runUnify (Unify.rows · expected actual) fun s _ =>
    .rowMismatch (s.applyRow expected) (s.applyRow actual) origin.reason origin.span

/-- The row with a fresh tail if it is closed. -/
def openRow (r : Row) : InferM Row :=
  if r.isClosed then return .extensible r.labels (← freshEffectVar) else return r

/-- Require that all effects of a row are allowed by another one. -/
def subeffect (sub sup : Row) (origin : Origin) : InferM Unit := do
  let sub ← openRow (← applyRow sub)
  unifyRows sup sub origin

/-- Require that all effects of several rows are allowed by another one. -/
def subeffects (sup : Row) (origin : Origin) : List Row → InferM Unit
  | [] => return ()
  | r :: rs => do
    subeffect r sup origin
    subeffects sup origin rs

/-- The smallest row with all effects of the given rows. -/
def join (rows : List Row) (origin : Origin) : InferM Row := do
  let s := (← get).subst
  match (rows.map s.applyRow).filter (!·.isPure) with
  | [] => return .pure
  | [r] => return r
  | rows =>
    let joined ← freshRow
    subeffects joined origin rows
    applyRow joined

/-- Require a trait of a type. -/
def constrain (t : Ty) (traitName : String) (origin : Origin) : InferM Unit :=
  modify fun st => { st with obligations := st.obligations ++ [⟨traitName, t, origin⟩] }

/-- Require the traits that a scheme requires, at the types it is used at. -/
def constrainGivens (s : Subst) (span : Span) : List Given → InferM Unit
  | [] => return ()
  | g :: gs => do
    constrain (s.apply g.type) g.traitName ⟨span, .traitBound g.traitName⟩
    constrainGivens s span gs

/-- Hand obligations back to the enclosing definition. -/
def defer (obs : List Obligation) : InferM Unit :=
  modify fun st => { st with obligations := st.obligations ++ obs }

/-- Take all pending obligations. -/
def takeObligations : InferM (List Obligation) :=
  modifyGet fun st => (st.obligations, { st with obligations := [] })

/-- Bind type variables to fresh types. -/
def renewTypes (s : Subst) : List TypeVar → InferM Subst
  | [] => return s
  | v :: vs => do renewTypes (s.bindType v (← freshType)) vs

/-- Bind effect variables to fresh rows. -/
def renewEffects (s : Subst) : List EffectVar → InferM Subst
  | [] => return s
  | e :: es => do renewEffects (s.bindEffect e (← freshRow)) es

/-- Use a scheme at fresh variables. Its requirements become obligations. If it is a function with a
closed row, the row gets a fresh tail, so that it may be used where more effects are allowed. -/
def instantiate (σ : Scheme) (span : Span) : InferM Ty := do
  if σ.isMono && σ.givens.isEmpty then
    return σ.type
  let s ← renewTypes .empty σ.typeVars
  let s ← renewEffects s σ.effectVars
  constrainGivens s span σ.givens
  match s.apply σ.type with
  | .fn params result effects => return .fn params result (← openRow effects)
  | t => return t

/-- Remember names for variables that have none yet. -/
def recordNames (names : VarNames) : InferM Unit :=
  modify fun st => { st with names := st.names.merge names }

/-- The type a written type stands for. Its variables are new and keep their names. -/
def resolve (reg : Registry) (written : Spanned TypeExpr) : InferM Ty := do
  let st ← get
  let start : Resolver := { fresh := st.unifier.fresh, scope := .empty }
  match (Resolve.type reg written.span written.node).run start with
  | .ok t r =>
    set { st with unifier := { st.unifier with fresh := r.fresh } }
    recordNames r.scope.names
    return t
  | .error e r =>
    set { st with unifier := { st.unifier with fresh := r.fresh } }
    throw e

/-- Give a name a type in the innermost scope. -/
def bind (name : String) (σ : Scheme) : InferM Unit :=
  modify fun st => { st with env := st.env.bind name σ }

/-- Close the innermost scope of a state. -/
def closeScope (st : InferState) : InferState :=
  { st with env := st.env.pop }

/-- Run a computation in a scope of its own, which is closed also if it fails. -/
def withScope {α : Type} (act : InferM α) : InferM α := fun st =>
  match act { st with env := st.env.push } with
  | .ok a st => .ok a (closeScope st)
  | .error e st => .error e (closeScope st)

/-- Leave a choice by patterns for the check of coverage. -/
def recordCases (cases : PendingCases) : InferM Unit :=
  modify fun st => { st with pending := st.pending ++ [cases] }

end Infer

end RowTyping
