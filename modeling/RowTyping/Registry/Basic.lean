import RowTyping.Registry.DataType
import RowTyping.Registry.Trait

/-!
# The registry

Everything declarations introduce before inference starts, apart from the types of names.
-/

namespace RowTyping

/-- The declared data types, traits and effects. -/
structure Registry where
  /-- The data types. -/
  dataTypes : DataTypes := {}
  /-- The traits and their implementations. -/
  traits : Traits := {}
  /-- The names of the effects, in increasing order. -/
  effects : List String := []
deriving Repr, Inhabited

namespace Registry

/-- Add a data type. -/
def insertData (r : Registry) (d : DataType) : Registry :=
  { r with dataTypes := r.dataTypes.insert d }

/-- Add a trait. -/
def insertTrait (r : Registry) (t : Trait) : Registry :=
  { r with traits := r.traits.insert t }

/-- Add an implementation. -/
def insertImpl (r : Registry) (impl : Implementation) : Registry :=
  { r with traits := r.traits.insertImpl impl }

/-- Add an effect. -/
def insertEffect (r : Registry) (name : String) : Registry :=
  { r with effects := Sorted.insert name r.effects }

/-- Whether an effect has been declared. -/
def hasEffect (r : Registry) (name : String) : Bool :=
  r.effects.contains name

end Registry

end RowTyping
