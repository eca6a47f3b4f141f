import RowTyping.Infer.Error
import RowTyping.Registry.Basic

/-!
# Trait obligations

Inference collects the requirements of the schemes it instantiates as obligations. `Traits.solve`
meets those with a known head by implementations and keeps those on variables, each once, in order
of first use.
-/

namespace RowTyping

/-- A trait that a type has to implement. -/
structure Obligation where
  /-- The required trait. -/
  traitName : String
  /-- The type it is required of. -/
  type : Ty
  /-- Where the requirement comes from. -/
  origin : Origin
deriving DecidableEq, Repr, Inhabited

namespace Obligation

/-- The obligation as a requirement of a scheme. -/
def toGiven (ob : Obligation) : Given :=
  ⟨ob.traitName, ob.type⟩

/-- The obligation with a substitution applied to its type. -/
def apply (s : Subst) (ob : Obligation) : Obligation :=
  { ob with type := s.apply ob.type }

end Obligation

/-- An obligation met by an implementation. -/
structure Resolution where
  /-- The required trait. -/
  traitName : String
  /-- The type constructor whose implementation meets it. -/
  typeName : String
  /-- The operations of the implementation. -/
  operations : List String
  /-- Where the requirement arose. -/
  span : Span
deriving DecidableEq, Repr, Inhabited

/-- The resolution of an obligation by an implementation. -/
def Obligation.resolveBy (ob : Obligation) (impl : Implementation) : Resolution :=
  ⟨ob.traitName, impl.typeName, impl.methods, ob.origin.span⟩

/-- The outcome of solving obligations. -/
structure Solved where
  /-- The obligations met by implementations, in order. -/
  resolved : List Resolution := []
  /-- The obligations on variables, each once, in order of first use. -/
  residual : List Obligation := []
deriving DecidableEq, Repr, Inhabited

namespace Solved

/-- Keep an obligation on a variable, unless the same requirement is there already. -/
def keep (solved : Solved) (ob : Obligation) : Solved :=
  if solved.residual.any (·.toGiven = ob.toGiven) then solved
  else { solved with residual := solved.residual ++ [ob] }

/-- The kept obligations as requirements. -/
def givens (solved : Solved) : List Given :=
  solved.residual.map (·.toGiven)

end Solved

namespace Traits

/-- Solve obligations after others. The first one that cannot be met is the error. -/
def solveAfter (ts : Traits) (s : Subst) (solved : Solved) :
    List Obligation → Except TypingError Solved
  | [] => .ok solved
  | ob :: obs =>
    let ob := ob.apply s
    match ts.goal ob.traitName ob.type with
    | .resolved impl =>
      ts.solveAfter s { solved with resolved := solved.resolved ++ [ob.resolveBy impl] } obs
    | .deferred => ts.solveAfter s (solved.keep ob) obs
    | .unresolved => .error (.unresolvedTrait ob.traitName ob.type ob.origin.span)

/-- Solve obligations under a substitution. -/
def solve (ts : Traits) (s : Subst) (obs : List Obligation) : Except TypingError Solved :=
  ts.solveAfter s {} obs

end Traits

end RowTyping
