import RowTyping.Types.Printer

/-!
# What happens during unification

The unifier reports every decision as an event that holds the types or rows concerned. A trace shows
events as numbered steps with both sides and an explanation; `UnifyEvent.step` writes them.
-/

namespace RowTyping

/-- How two types of one shape are taken apart. -/
inductive Shape where
  /-- The same constructor on both sides. -/
  | constructor
  /-- Applications on both sides. -/
  | applications
  /-- An application against a constructor. -/
  | applicationConstructor
  /-- A constructor against an application. -/
  | constructorApplication
  /-- Functions on both sides. -/
  | functions
  /-- Tuples on both sides. -/
  | tuples
deriving DecidableEq, Repr, Inhabited

/-- Why two rows cannot be made equal. -/
inductive RowConflict where
  /-- Closed rows with different labels. -/
  | closedRowsDiffer
  /-- A closed row without a label the open row requires. -/
  | closedRowLacks
  /-- Rows with one tail and different labels. -/
  | sharedTail
deriving DecidableEq, Repr, Inhabited

/-- A decision of the unifier. -/
inductive UnifyEvent where
  /-- Both sides are the same type. -/
  | identical (t : Ty)
  /-- Two types of one shape are taken apart. -/
  | decompose (shape : Shape) (left right : Ty)
  /-- A variable is bound to a type. -/
  | bind (v : TypeVar) (t : Ty)
  /-- A variable would have to contain itself. -/
  | occursCheck (v : TypeVar) (t : Ty)
  /-- Two types of different shapes meet. -/
  | mismatch (left right : Ty)
  /-- Two different rows are to be unified. -/
  | rows (left right : Row)
  /-- A tail is bound to a closed row with this many labels. -/
  | closeTail (left right : Row) (tail : EffectVar) (labels : Nat)
  /-- A tail is bound to another tail. -/
  | joinTails (left right : Row) (tail other : EffectVar)
  /-- Both tails are extended by the other side's labels and meet in a fresh tail. -/
  | shareTail (left right : Row) (tail other fresh : EffectVar)
  /-- Two rows cannot be made equal. -/
  | rowConflict (why : RowConflict) (left right : Row)
deriving DecidableEq, Repr, Inhabited

/-- The kind of a step in a trace. -/
inductive UnifyAction where
  | identity | decompose | bind | unifyEffects | bindEffectVar | remyDecompose | occursCheck | error
deriving DecidableEq, Repr, Inhabited

/-- The word a trace uses for a kind of step. -/
def UnifyAction.name : UnifyAction → String
  | .identity => "identity"
  | .decompose => "decompose"
  | .bind => "bind"
  | .unifyEffects => "unify_effects"
  | .bindEffectVar => "bind_effect_var"
  | .remyDecompose => "remy_decompose"
  | .occursCheck => "occurs_check"
  | .error => "error"

/-- One numbered step of a unification trace. -/
structure UnifyStep where
  /-- The position in the trace, from one. -/
  number : Nat
  /-- What was done. -/
  action : UnifyAction
  /-- The expected side. -/
  left : String
  /-- The actual side. -/
  right : String
  /-- An explanation. -/
  detail : String
deriving DecidableEq, Repr, Inhabited

/-- The explanation for taking two types apart. -/
def Shape.detail : Shape → String
  | .constructor => "same constructor: unify arguments pairwise"
  | .applications => "App(F, args) ~ App(G, args): unify heads and trailing arguments"
  | .applicationConstructor => "variable head against constructor: split off trailing arguments"
  | .constructorApplication => "constructor against variable head: split off trailing arguments"
  | .functions => "function ~ function: unify params, result and effects"
  | .tuples => "tuple ~ tuple: unify elements pairwise"

/-- The explanation for rows that cannot be made equal. -/
def RowConflict.detail : RowConflict → String
  | .closedRowsDiffer => "closed rows differ"
  | .closedRowLacks => "closed row lacks required effects"
  | .sharedTail => "rows share a tail"

namespace UnifyEvent

/-- The kind of step an event is shown as. -/
def action : UnifyEvent → UnifyAction
  | .identical _ => .identity
  | .decompose _ _ _ => .decompose
  | .bind _ _ => .bind
  | .occursCheck _ _ => .occursCheck
  | .mismatch _ _ | .rowConflict _ _ _ => .error
  | .rows _ _ => .unifyEffects
  | .closeTail _ _ _ _ | .joinTails _ _ _ _ => .bindEffectVar
  | .shareTail _ _ _ _ _ => .remyDecompose

/-- Both sides of an event, written with common canonical names. -/
def sides : UnifyEvent → String × String
  | .identical t => t.renderPair t
  | .decompose _ left right | .mismatch left right => left.renderPair right
  | .bind v t | .occursCheck v t => (Ty.var v).renderPair t
  | .rows left right | .closeTail left right _ _ | .joinTails left right _ _
  | .shareTail left right _ _ _ | .rowConflict _ left right => left.renderPair right

/-- The explanation of an event. -/
def detail : UnifyEvent → String
  | .identical _ => "types already equal"
  | .decompose shape _ _ => shape.detail
  | .bind v t => s!"t{v.id} := {t.renderCanonical}"
  | .occursCheck _ _ => "infinite type prevented"
  | .mismatch _ _ => "type mismatch"
  | .rows _ _ => "unify effect rows"
  | .closeTail _ _ tail labels => s!"e{tail.id} := closed({labels})"
  | .joinTails _ _ tail other => s!"e{tail.id} := e{other.id}"
  | .shareTail _ _ tail other fresh => s!"e{tail.id} and e{other.id} share fresh tail e{fresh.id}"
  | .rowConflict why _ _ => why.detail

/-- Show an event as the step with the given number. -/
def step (number : Nat) (event : UnifyEvent) : UnifyStep where
  number
  action := event.action
  left := event.sides.1
  right := event.sides.2
  detail := event.detail

end UnifyEvent

/-- Show a sequence of events as steps numbered from one. -/
def UnifyStep.ofEvents (events : List UnifyEvent) : List UnifyStep :=
  events.mapIdx fun i event => event.step (i + 1)

end RowTyping
