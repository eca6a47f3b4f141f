import RowTyping.Syntax.Module
import RowTyping.Types.Basic

/-!
# Generated workloads

Families of modules and of type pairs that grow with a parameter, to measure the checker with.
-/

namespace RowTyping.Workload

/-- The place of all generated nodes. -/
def here : Span := ⟨0, 0, 0⟩

/-- A value at the place of generated nodes. -/
def located {α : Type} (node : α) : Spanned α := ⟨node, here⟩

/-- A reference to a name. -/
def var (name : String) : Expr := .var here name

/-- A pattern that binds a name. -/
def param (name : String) : Pattern := .var here name

/-- A call of a named function. -/
def call (name : String) (args : List Expr) : Expr := .call here (var name) args

/-- The definition of a function. -/
def function (name : String) (params : List String) (body : Expr) : Definition :=
  { name := located name, params := params.map param, body, span := here }

/-- The declaration of a function. -/
def declareFunction (name : String) (params : List String) (body : Expr) : Spanned Declaration :=
  located (.definition (function name params body))

/-- The trait of type constructors with a `map`. -/
def functor : TraitDecl where
  name := located "Functor"
  param := located "f"
  methods := [
    { name := located "map"
      type := located (.function
        [.applied "f" [.named "a"], .function [.named "a"] (.named "b") (.var "c")]
        (.applied "f" [.named "b"]) (.var "c"))
      span := here }]

/-- The implementation of `map` for optional values. -/
def functorMaybe : ImplDecl where
  traitName := located "Functor"
  typeName := located "Maybe"
  methods := [
    function "map" ["m", "f"]
      (.cases here (var "m") [
        (.constructor here "Some" [param "x"], call "Some" [call "f" [var "x"]]),
        (.constructor here "None" [], var "None")])]

/-- The declarations every generated module starts with. -/
def functorDecls : List (Spanned Declaration) :=
  [located (.trait functor), located (.impl functorMaybe)]

/-- The body of a step in a chain: every fourth maps over an optional value, all others call the
step before. -/
def stepBody (i : Nat) : Expr :=
  if i = 0 then call "Some" [var "x"]
  else if i % 4 = 0 then call "map" [call "Some" [var "x"], var "id"]
  else call s!"step{i - 1}" [var "x"]

/-- A module whose definitions each depend on the one before. -/
def chain (n : Nat) : Module where
  declarations :=
    functorDecls ++
    (List.range (max n 1)).map (fun i => declareFunction s!"step{i}" ["x"] (stepBody i)) ++
    [declareFunction "id" ["y"] (var "y")]

/-- The body of an independent definition. -/
def liftBody (i : Nat) : Expr :=
  .lambda here [param "y"]
    (call "map"
      [call "Some" [var "x"], .lambda here [param "z"] (.lit here (.int (Int64.ofNat i)))])

/-- A module whose definitions depend on nothing but declarations. -/
def independent (n : Nat) : Module where
  declarations :=
    functorDecls ++
    (List.range (max n 1)).map fun i => declareFunction s!"lift{i}" ["x"] (liftBody i)

/-- A function type of variables, nested through its results, with a variable row at each level. -/
def openFunction : Nat → Ty
  | 0 => .prim .int
  | n + 1 => .fn [.var ⟨n⟩] (openFunction n) (.ofVar ⟨n⟩)

/-- A pure function type of optional numbers, nested through its results, that ends in a type. -/
def pureFunction (last : Ty) : Nat → Ty
  | 0 => last
  | n + 1 => .fn [.named "Maybe" [.prim .int]] (pureFunction last n) .pure

/-- Two types of the given depth that unify. Their variables are numbered up to the depth, so 32
bits hold them below a depth of `2 ^ 32`. -/
def unifyPair (depth : Nat) : Ty × Ty :=
  (openFunction depth, pureFunction (.var ⟨depth⟩) depth)

end RowTyping.Workload
