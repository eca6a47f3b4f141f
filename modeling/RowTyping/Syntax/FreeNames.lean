import RowTyping.Data.Sorted
import RowTyping.Syntax.Module

/-!
# Free names

The names an expression refers to without binding them. They decide in which order the definitions
of a module are inferred.
-/

namespace RowTyping

namespace Expr

mutual

/-- The references to names that are neither in `bound` nor bound inside the expression. The value
of a local definition is outside the scope of its pattern. -/
def freeReferences (bound : List String) : Expr → List String
  | .lit _ _ => []
  | .var _ name => if name ∈ bound then [] else [name]
  | .lambda _ params body => body.freeReferences (Pattern.boundNamesAll params ++ bound)
  | .call _ callee args => callee.freeReferences bound ++ freeReferencesAll bound args
  | .letIn _ pattern _ value body =>
    value.freeReferences bound ++ body.freeReferences (pattern.boundNames ++ bound)
  | .cond _ condition onTrue onFalse =>
    condition.freeReferences bound ++ onTrue.freeReferences bound ++ onFalse.freeReferences bound
  | .cases _ scrutinee arms => scrutinee.freeReferences bound ++ freeReferencesArms bound arms
  | .ascribe _ expr _ => expr.freeReferences bound
  | .tuple _ elems => freeReferencesAll bound elems

/-- The free references of a list of expressions. -/
def freeReferencesAll (bound : List String) : List Expr → List String
  | [] => []
  | e :: es => e.freeReferences bound ++ freeReferencesAll bound es

/-- The free references of the arms of a choice; each pattern binds its names in its own body. -/
def freeReferencesArms (bound : List String) : List (Pattern × Expr) → List String
  | [] => []
  | (p, e) :: arms =>
    e.freeReferences (p.boundNames ++ bound) ++ freeReferencesArms bound arms

end

/-- The free names of an expression, in increasing order. -/
def freeNames (e : Expr) : List String :=
  Sorted.ofList (e.freeReferences [])

end Expr

/-- The free names of a definition, in increasing order. The parameters are bound in the body. -/
def Definition.freeNames (d : Definition) : List String :=
  Sorted.ofList (d.body.freeReferences (Pattern.boundNamesAll d.params))

end RowTyping
