import RowTyping.Types.Row

/-!
# Types

A type is a primitive, a variable, a named constructor applied to arguments, an application whose
head is not a known constructor, a function with an effect row, or a tuple. `Ty.applyTo` builds
applications in normal form: a known constructor takes the arguments itself, and nested applications
are merged.
-/

namespace RowTyping

/-- The built-in types. -/
inductive Prim where
  | int | float | bool | string | unit
deriving DecidableEq, Repr, Inhabited

namespace Prim

/-- The name a primitive type is written with. -/
def name : Prim → String
  | .int => "Int"
  | .float => "Float"
  | .bool => "Bool"
  | .string => "String"
  | .unit => "Unit"

/-- The primitive type with the given name. -/
def ofName? : String → Option Prim
  | "Int" => some .int
  | "Float" => some .float
  | "Bool" => some .bool
  | "String" => some .string
  | "Unit" => some .unit
  | _ => none

end Prim

/-- A type. -/
inductive Ty where
  /-- A built-in type. -/
  | prim (p : Prim)
  /-- A type variable. -/
  | var (v : TypeVar)
  /-- A type constructor applied to arguments, such as `Maybe Int`. -/
  | named (name : String) (args : List Ty)
  /-- An application whose head is not a known constructor, such as `f a`. -/
  | app (head : Ty) (args : List Ty)
  /-- A function of all its parameters at once, with the effects of a call. -/
  | fn (params : List Ty) (result : Ty) (effects : Row)
  /-- A tuple. -/
  | tuple (elems : List Ty)
deriving Repr, Inhabited

namespace Ty

mutual

/-- Decide whether two types are equal. -/
def decEq : (a b : Ty) → Decidable (a = b)
  | .prim p, b =>
    match b with
    | .prim q => if h : p = q then isTrue (by rw [h]) else isFalse (by simp [h])
    | .var _ | .named _ _ | .app _ _ | .fn _ _ _ | .tuple _ => isFalse (by simp)
  | .var v, b =>
    match b with
    | .var w => if h : v = w then isTrue (by rw [h]) else isFalse (by simp [h])
    | .prim _ | .named _ _ | .app _ _ | .fn _ _ _ | .tuple _ => isFalse (by simp)
  | .named n as, b =>
    match b with
    | .named m bs =>
      if h : n = m then
        match decEqList as bs with
        | isTrue h' => isTrue (by rw [h, h'])
        | isFalse h' => isFalse (by simp [h'])
      else isFalse (by simp [h])
    | .prim _ | .var _ | .app _ _ | .fn _ _ _ | .tuple _ => isFalse (by simp)
  | .app f as, b =>
    match b with
    | .app g bs =>
      match decEq f g with
      | isTrue h =>
        match decEqList as bs with
        | isTrue h' => isTrue (by rw [h, h'])
        | isFalse h' => isFalse (by simp [h'])
      | isFalse h => isFalse (by simp [h])
    | .prim _ | .var _ | .named _ _ | .fn _ _ _ | .tuple _ => isFalse (by simp)
  | .fn as r e, b =>
    match b with
    | .fn bs s f =>
      if hrow : e = f then
        match decEq r s with
        | isTrue h =>
          match decEqList as bs with
          | isTrue h' => isTrue (by rw [h, h', hrow])
          | isFalse h' => isFalse (by simp [h'])
        | isFalse h => isFalse (by simp [h])
      else isFalse (by simp [hrow])
    | .prim _ | .var _ | .named _ _ | .app _ _ | .tuple _ => isFalse (by simp)
  | .tuple as, b =>
    match b with
    | .tuple bs =>
      match decEqList as bs with
      | isTrue h => isTrue (by rw [h])
      | isFalse h => isFalse (by simp [h])
    | .prim _ | .var _ | .named _ _ | .app _ _ | .fn _ _ _ => isFalse (by simp)

/-- Decide whether two lists of types are equal. -/
def decEqList : (as bs : List Ty) → Decidable (as = bs)
  | [], [] => isTrue rfl
  | [], _ :: _ => isFalse (by simp)
  | _ :: _, [] => isFalse (by simp)
  | a :: as, b :: bs =>
    match decEq a b with
    | isTrue h =>
      match decEqList as bs with
      | isTrue h' => isTrue (by rw [h, h'])
      | isFalse h' => isFalse (by simp [h'])
    | isFalse h => isFalse (by simp [h])

end

instance : DecidableEq Ty := decEq

/-- The primitive type `Int`. -/
def int : Ty := .prim .int

/-- The primitive type `Bool`. -/
def bool : Ty := .prim .bool

/-- The primitive type `Unit`. -/
def unit : Ty := .prim .unit

/-- Apply a type to arguments. A named head takes the arguments itself, an application is extended,
and no argument at all leaves the head as it is. -/
def applyTo (head : Ty) (args : List Ty) : Ty :=
  if args.isEmpty then head
  else
    match head with
    | .named name before => .named name (before ++ args)
    | .app inner before => .app inner (before ++ args)
    | other => .app other args

/-- The name of the type constructor at the head, under which implementations are registered. -/
def headConstructor? : Ty → Option String
  | .prim p => some p.name
  | .named name _ => some name
  | .var _ | .app _ _ | .fn _ _ _ | .tuple _ => none

/-- The variable at the head, if the head is not resolved yet. -/
def headVar? : Ty → Option TypeVar
  | .var v => some v
  | .app head _ => head.headVar?
  | .prim _ | .named _ _ | .fn _ _ _ | .tuple _ => none

/-- Whether the type stands as an operand without parentheses. -/
def isAtomic : Ty → Bool
  | .named _ args => args.isEmpty
  | .app _ _ | .fn _ _ _ => false
  | .prim _ | .var _ | .tuple _ => true

/-- Whether this is a function type. -/
def isFn : Ty → Bool
  | .fn _ _ _ => true
  | .prim _ | .var _ | .named _ _ | .app _ _ | .tuple _ => false

mutual

/-- The number of nodes of a type, rows not counted. -/
def size : Ty → Nat
  | .prim _ | .var _ => 1
  | .named _ args => 1 + sizeAll args
  | .app head args => 1 + head.size + sizeAll args
  | .fn params result _ => 1 + sizeAll params + result.size
  | .tuple elems => 1 + sizeAll elems

/-- The number of nodes of all types of a list. -/
def sizeAll : List Ty → Nat
  | [] => 0
  | t :: ts => t.size + sizeAll ts

end

mutual

/-- Every occurrence of a variable, from left to right in the order the type is written: the effect
of a function comes after its result. -/
def occurrences : Ty → List Var
  | .prim _ => []
  | .var v => [.type v]
  | .named _ args => occurrencesAll args
  | .app head args => head.occurrences ++ occurrencesAll args
  | .fn params result effects =>
    occurrencesAll params ++ result.occurrences ++ (effects.tail.map Var.effect).toList
  | .tuple elems => occurrencesAll elems

/-- Every occurrence of a variable in a list of types. -/
def occurrencesAll : List Ty → List Var
  | [] => []
  | t :: ts => t.occurrences ++ occurrencesAll ts

end

mutual

/-- Replace the variables of a type: type variables by `σ` and effect tails by `ρ`. Applications are
brought into normal form on the way. -/
def subst (σ : TypeVar → Ty) (ρ : EffectVar → Option Row) : Ty → Ty
  | .prim p => .prim p
  | .var v => σ v
  | .named name args => .named name (substAll σ ρ args)
  | .app head args => (head.subst σ ρ).applyTo (substAll σ ρ args)
  | .fn params result effects =>
    .fn (substAll σ ρ params) (result.subst σ ρ) (effects.subst ρ)
  | .tuple elems => .tuple (substAll σ ρ elems)

/-- Replace the variables of every type of a list. -/
def substAll (σ : TypeVar → Ty) (ρ : EffectVar → Option Row) : List Ty → List Ty
  | [] => []
  | t :: ts => t.subst σ ρ :: substAll σ ρ ts

end

end Ty

end RowTyping
