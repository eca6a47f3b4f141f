import RowTyping.Syntax.Span
import RowTyping.Types.Scheme
import RowTyping.Types.Subst

/-!
# Data types

A data type is given by its parameters and its constructors. The types of a constructor's fields
mention the parameters; `DataType.fieldsAt` puts arguments in their place.
-/

namespace RowTyping

/-- A constructor of a data type. -/
structure Constructor where
  /-- The name of the constructor. -/
  name : String
  /-- The types of its fields, in terms of the parameters of the data type. -/
  fields : List Ty
  /-- Where it is declared. -/
  span : Span := .synthetic
deriving DecidableEq, Repr, Inhabited

/-- A data type. -/
structure DataType where
  /-- The name of the type. -/
  name : String
  /-- The parameters with the names they were declared with. -/
  params : List (TypeVar × String) := []
  /-- The constructors in the order of their declaration. -/
  constructors : List Constructor := []
  /-- Where it is declared. -/
  span : Span := .synthetic
deriving DecidableEq, Repr, Inhabited

namespace DataType

/-- The parameters as variables. -/
def paramVars (d : DataType) : List TypeVar :=
  d.params.map (·.1)

/-- The number of parameters. -/
def arity (d : DataType) : Nat :=
  d.params.length

/-- The type applied to its own parameters, such as `Maybe a`. -/
def resultType (d : DataType) : Ty :=
  .named d.name (d.paramVars.map .var)

/-- The type of a constructor as a value: a pure function of its fields, or the data type itself if
it has none. -/
def constructorScheme (d : DataType) (c : Constructor) : Scheme where
  typeVars := d.paramVars
  names := { types := .ofList d.params }
  type := if c.fields.isEmpty then d.resultType else .fn c.fields d.resultType .pure

/-- The substitution of arguments for the parameters, from left to right. -/
def argumentSubst (d : DataType) (args : List Ty) : Subst :=
  (d.paramVars.zip args).foldl (fun s entry => s.bindType entry.1 entry.2) .empty

/-- The types of a constructor's fields when the data type has these arguments. -/
def fieldsAt (d : DataType) (args : List Ty) (c : Constructor) : List Ty :=
  c.fields.map (d.argumentSubst args).apply

end DataType

/-- The declared data types. -/
structure DataTypes where
  /-- The data types by name. -/
  types : Dict String DataType := {}
  /-- The name of the data type a constructor belongs to. -/
  owners : Dict String String := {}
deriving Repr, Inhabited

namespace DataTypes

/-- Add a data type, replacing one of the same name. -/
def insert (ds : DataTypes) (d : DataType) : DataTypes where
  types := ds.types.insert d.name d
  owners := d.constructors.foldl (fun owners c => owners.insert c.name d.name) ds.owners

/-- The data type with the given name. -/
def get? (ds : DataTypes) (name : String) : Option DataType :=
  ds.types.get? name

/-- The constructor with the given name and the data type it belongs to. -/
def constructor? (ds : DataTypes) (name : String) : Option (DataType × Constructor) := do
  let d ← ds.types.get? (← ds.owners.get? name)
  let c ← d.constructors.find? (·.name = name)
  return (d, c)

/-- Whether a constructor of the given name has been declared. -/
def hasConstructor (ds : DataTypes) (name : String) : Bool :=
  ds.owners.contains name

/-- The number of parameters of a data type. -/
def arity? (ds : DataTypes) (name : String) : Option Nat :=
  (ds.get? name).map (·.arity)

/-- The type an implementation may be given for, with the number of arguments it still takes: a
primitive or a data type without its arguments. -/
def implHead? (ds : DataTypes) (name : String) : Option (Ty × Nat) :=
  match Prim.ofName? name with
  | some p => some (.prim p, 0)
  | none => (ds.arity? name).map fun n => (.named name [], n)

end DataTypes

end RowTyping
