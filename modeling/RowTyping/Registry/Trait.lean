import RowTyping.Syntax.Span
import RowTyping.Types.Scheme

/-!
# Traits and implementations

A trait requires operations of a type constructor. An implementation is found by the trait and the
head of the type: `Traits.goal` decides a requirement whose head is known and defers the others.
-/

namespace RowTyping

/-- An operation of a trait. -/
structure Method where
  /-- The name of the operation. -/
  name : String
  /-- Its type, quantified over the trait's parameter too; the first requirement is the trait
  itself. -/
  scheme : Scheme
  /-- Where it is declared. -/
  span : Span := .synthetic
deriving DecidableEq, Repr, Inhabited

/-- A trait. -/
structure Trait where
  /-- The name of the trait. -/
  name : String
  /-- The parameter that stands for an implementing type constructor. -/
  param : TypeVar
  /-- The name the parameter was declared with. -/
  paramName : String
  /-- The number of arguments the parameter takes. -/
  paramArity : Nat
  /-- The operations in the order of their declaration. -/
  methods : List Method
  /-- Where it is declared. -/
  span : Span := .synthetic
deriving DecidableEq, Repr, Inhabited

/-- The operation of a trait with the given name. -/
def Trait.method? (t : Trait) (name : String) : Option Method :=
  t.methods.find? (·.name = name)

/-- An implementation of a trait. -/
structure Implementation where
  /-- The implemented trait. -/
  traitName : String
  /-- The type constructor it is implemented for. -/
  typeName : String
  /-- The names it defines, each once, in the order of their definitions. -/
  methods : List String
  /-- Where it is declared. -/
  span : Span := .synthetic
deriving DecidableEq, Repr, Inhabited

/-- The declared traits and implementations. -/
structure Traits where
  /-- The traits by name. -/
  traits : Dict String Trait := {}
  /-- The implementations by trait and then by type constructor. -/
  impls : Dict String (Dict String Implementation) := {}
  /-- The name of the trait an operation belongs to. -/
  owners : Dict String String := {}
deriving Repr, Inhabited

/-- What is known about a requirement. -/
inductive GoalOutcome where
  /-- It is met by an implementation. -/
  | resolved (impl : Implementation)
  /-- The head of the type is a variable, so it cannot be decided yet. -/
  | deferred
  /-- No implementation can meet it. -/
  | unresolved
deriving DecidableEq, Repr, Inhabited

namespace Traits

/-- Add a trait, replacing one of the same name. -/
def insert (ts : Traits) (t : Trait) : Traits :=
  { ts with
    traits := ts.traits.insert t.name t
    owners := t.methods.foldl (fun owners m => owners.insert m.name t.name) ts.owners }

/-- Add an implementation, replacing one of the same trait for the same type constructor. -/
def insertImpl (ts : Traits) (impl : Implementation) : Traits :=
  let ofTrait := (ts.impls.get? impl.traitName).getD {}
  { ts with impls := ts.impls.insert impl.traitName (ofTrait.insert impl.typeName impl) }

/-- The trait with the given name. -/
def get? (ts : Traits) (name : String) : Option Trait :=
  ts.traits.get? name

/-- The implementation of a trait for a type constructor. -/
def impl? (ts : Traits) (traitName typeName : String) : Option Implementation :=
  (ts.impls.get? traitName).bind (·.get? typeName)

/-- The trait an operation belongs to. -/
def owner? (ts : Traits) (method : String) : Option Trait :=
  (ts.owners.get? method).bind ts.get?

/-- Decide a requirement by the head of its type. -/
def goal (ts : Traits) (traitName : String) (t : Ty) : GoalOutcome :=
  match t.headConstructor? with
  | some head =>
    match ts.impl? traitName head with
    | some impl => .resolved impl
    | none => .unresolved
  | none => if t.headVar?.isSome then .deferred else .unresolved

end Traits

end RowTyping
