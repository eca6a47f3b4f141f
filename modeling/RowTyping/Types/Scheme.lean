import RowTyping.Types.Printer

/-!
# Type schemes

A scheme quantifies a type over variables and carries the trait requirements on them, written as
`given` clauses, together with the names the variables were declared with.
-/

namespace RowTyping

/-- A trait requirement on a type, such as `Functor f`. -/
structure Given where
  /-- The trait the type has to implement. -/
  traitName : String
  /-- The type with the requirement. -/
  type : Ty
deriving DecidableEq, Repr, Inhabited

/-- Write a requirement with the given names for variables. -/
def Given.render (names : VarNames) (g : Given) : String :=
  g.traitName ++ " " ++ g.type.renderOperand names

/-- A type quantified over variables, with requirements on them. -/
structure Scheme where
  /-- The quantified type variables. -/
  typeVars : List TypeVar := []
  /-- The quantified effect variables. -/
  effectVars : List EffectVar := []
  /-- The requirements on the quantified variables, in order of first use. -/
  givens : List Given := []
  /-- The declared names of quantified variables. -/
  names : VarNames := {}
  /-- The type under the quantifiers. -/
  type : Ty
deriving DecidableEq, Repr, Inhabited

namespace Scheme

/-- The scheme of a type without quantified variables. -/
def mono (t : Ty) : Scheme :=
  { type := t }

/-- Whether no variable is quantified. -/
def isMono (σ : Scheme) : Bool :=
  σ.typeVars.isEmpty && σ.effectVars.isEmpty

end Scheme

end RowTyping
