import RowTyping.Check.State
import RowTyping.Json.Basic

/-!
# Traces as JSON

Each trace is written as an object with its members in a fixed order.
-/

namespace RowTyping

/-- Write a step of unification. -/
def UnifyStep.toJson (s : UnifyStep) : Json :=
  .object [("step", .int s.number), ("action", .string s.action.name), ("left", .string s.left),
    ("right", .string s.right), ("detail", .string s.detail)]

/-- Write a step of inference. The range is left out for nodes without a source. -/
def InferStep.toJson (s : InferStep) : Json :=
  .object ([("expr", .string s.subject), ("type", .string s.type), ("rule", .string s.rule.name),
    ("detail", .string s.detail)] ++
    s.range.toList.map fun (start, stop) =>
      ("span", .array [.int start.toNat, .int stop.toNat]))

/-- Write the trace of a binding. -/
def BindingTrace.toJson (t : BindingTrace) : Json :=
  .object [("binding", .string t.binding), ("unify", .array (t.unify.map UnifyStep.toJson)),
    ("infer", .array (t.infer.map InferStep.toJson))]

end RowTyping
