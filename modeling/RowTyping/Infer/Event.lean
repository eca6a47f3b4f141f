import RowTyping.Syntax.Span
import RowTyping.Types.Printer

/-!
# What happens during inference

Each rule that fires is recorded with the type it found. A trace shows these events as steps with
the type written in canonical names.
-/

namespace RowTyping

/-- The rule that typed an expression. -/
inductive InferRule where
  | literal | varLookup | lambda | call | letIn | letGen | cond | cases | ascription | tuple
  | generalize | solve
deriving DecidableEq, Repr, Inhabited

/-- The word a trace uses for a rule. -/
def InferRule.name : InferRule → String
  | .literal => "literal"
  | .varLookup => "var_lookup"
  | .lambda => "lambda"
  | .call => "call"
  | .letIn => "let"
  | .letGen => "let_gen"
  | .cond => "if"
  | .cases => "match"
  | .ascription => "annotation"
  | .tuple => "tuple"
  | .generalize => "generalize"
  | .solve => "solve"

/-- The use of a rule. -/
structure InferEvent where
  /-- The rule. -/
  rule : InferRule
  /-- What the rule was used on. -/
  subject : String
  /-- The type found, as it stood at that moment. -/
  type : Ty
  /-- An explanation. -/
  detail : String
  /-- Where the rule was used. -/
  span : Span
deriving DecidableEq, Repr, Inhabited

/-- One step of an inference trace. -/
structure InferStep where
  /-- What the rule was used on. -/
  subject : String
  /-- The type found. -/
  type : String
  /-- The rule. -/
  rule : InferRule
  /-- An explanation. -/
  detail : String
  /-- The first byte and the byte after the last one, for nodes with a source. -/
  range : Option (UInt32 × UInt32)
deriving DecidableEq, Repr, Inhabited

/-- Show an event as a step. -/
def InferEvent.step (event : InferEvent) : InferStep where
  subject := event.subject
  type := event.type.renderCanonical
  rule := event.rule
  detail := event.detail
  range := event.span.inSource?.map fun span => (span.start, span.stop)

end RowTyping
