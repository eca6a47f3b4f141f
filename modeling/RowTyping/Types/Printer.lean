import RowTyping.Types.Names

/-!
# Writing types and rows

A function type is written `p - q -> r can c`, with ` pure` for the pure row; applications in
operand position and functions in parameter or result position are parenthesised. Messages about two
types write both with one set of canonical names, so a variable has the same name on both sides.
-/

namespace RowTyping

/-- Put a text into parentheses if asked to. -/
def parenthesizeIf (wrap : Bool) (text : String) : String :=
  if wrap then "(" ++ text ++ ")" else text

/-- Write a row: `pure`, or `can` followed by the labels and the tail. -/
def Row.render (names : VarNames) (r : Row) : String :=
  if r.isPure then "pure"
  else
    let tail := r.tail.map fun e => names.nameOf (.effect e)
    "can " ++ ", ".intercalate (r.labels ++ tail.toList)

namespace Ty

mutual

/-- Write a type with the given names for its variables. -/
def render (names : VarNames) : Ty → String
  | .prim p => p.name
  | .var v => names.nameOf (.type v)
  | .named name args => " ".intercalate (name :: renderAll names (!·.isAtomic) args)
  | .app head args =>
    " ".intercalate
      (parenthesizeIf (!head.isAtomic) (head.render names) :: renderAll names (!·.isAtomic) args)
  | .tuple elems => "(" ++ ", ".intercalate (renderAll names (fun _ => false) elems) ++ ")"
  | .fn params result effects =>
    (if params.isEmpty then "Unit" else " - ".intercalate (renderAll names Ty.isFn params))
      ++ " -> " ++ parenthesizeIf result.isFn (result.render names) ++ " " ++ effects.render names

/-- Write every type of a list, with parentheses around those that `wrap` selects. -/
def renderAll (names : VarNames) (wrap : Ty → Bool) : List Ty → List String
  | [] => []
  | t :: ts => parenthesizeIf (wrap t) (t.render names) :: renderAll names wrap ts

end

/-- Write a type as an operand of an application. -/
def renderOperand (names : VarNames) (t : Ty) : String :=
  parenthesizeIf (!t.isAtomic) (t.render names)

/-- Write a type with the numbers of its variables. -/
def raw (t : Ty) : String :=
  t.render {}

/-- Write two types with one set of canonical names. -/
def renderPair (left right : Ty) : String × String :=
  let names := VarNames.canonical (left.occurrences ++ right.occurrences)
  (left.render names, right.render names)

/-- Write a type with canonical names. -/
def renderCanonical (t : Ty) : String :=
  t.render (VarNames.canonical t.occurrences)

end Ty

/-- Write a row with the number of its tail. -/
def Row.raw (r : Row) : String :=
  r.render {}

/-- Write two rows with one set of canonical names for their tails. -/
def Row.renderPair (left right : Row) : String × String :=
  let tails := left.tail.toList ++ right.tail.toList
  let names := VarNames.canonical (tails.map Var.effect)
  (left.render names, right.render names)

end RowTyping
