/-!
# JSON values

Numbers are split into integers and floating point numbers. Object members keep their order and
repeated keys, because a reader may have to refuse repetitions.
-/

namespace RowTyping

/-- A JSON value. -/
inductive Json where
  | null
  | bool (b : Bool)
  /-- A number without fraction and exponent. -/
  | int (n : Int)
  /-- Any other number. -/
  | float (x : Float)
  | string (s : String)
  | array (items : List Json)
  /-- An object, with its members in order. -/
  | object (members : List (String × Json))
  /-- Correct text that denotes no value and may only be skipped: a string or a key with an unpaired
  surrogate, or a number out of range. -/
  | unreadable
deriving Repr, Inhabited

/-- The members of a record with the given field names: its values by position, and whether they
came without names. -/
structure JsonRecord where
  /-- Whether the record was an array of its fields. -/
  positional : Bool
  /-- The values of the fields that are present. -/
  field : Nat → Option Json

namespace Json

mutual

/-- How many arrays and objects stand inside each other, the value itself included. -/
def nesting : Json → Nat
  | .array items => nestingOfItems items + 1
  | .object members => nestingOfMembers members + 1
  | .null | .bool _ | .int _ | .float _ | .string _ | .unreadable => 0

/-- The largest nesting of an item. -/
def nestingOfItems : List Json → Nat
  | [] => 0
  | item :: items => max item.nesting (nestingOfItems items)

/-- The largest nesting of the value of a member. -/
def nestingOfMembers : List (String × Json) → Nat
  | [] => 0
  | (_, value) :: members => max value.nesting (nestingOfMembers members)

end

/-- The values stored under a key, in order. -/
def valuesOf (key : String) (members : List (String × Json)) : List Json :=
  (members.filter (·.1 = key)).map (·.2)

/-- Read a record with the given fields. An object may have other members, which are skipped, but
none of the fields twice. An array lists the fields in order and may stop early, but has nothing
more. -/
def record? (fields : List String) : Json → Option JsonRecord
  | .object members =>
    if fields.all fun key => (valuesOf key members).length ≤ 1 then
      some
        { positional := false
          field := fun i => (fields[i]?).bind fun key => (valuesOf key members).head? }
    else none
  | .array items =>
    if items.length ≤ fields.length then some { positional := true, field := (items[·]?) } else none
  | _ => none

/-- The text of a string. -/
def string? : Json → Option String
  | .string s => some s
  | _ => none

/-- The variant name and the value of an object with exactly one member. -/
def variant? : Json → Option (String × Json)
  | .object [member] => some member
  | _ => none

end Json

namespace JsonRecord

/-- A field that has to be present. -/
def required (r : JsonRecord) (i : Nat) : Option Json :=
  r.field i

/-- Read a field that may be missing, which then has the given value. -/
def withDefault {α : Type} (r : JsonRecord) (i : Nat) (default : α) (read : Json → Option α) :
    Option α :=
  match r.field i with
  | none => some default
  | some j => read j

/-- Read a field that may be `null`. -/
def nullable {α : Type} (read : Json → Option α) : Json → Option (Option α)
  | .null => some none
  | j => (read j).map some

/-- Read a field that may be `null` or, in an object, missing. -/
def optional {α : Type} (r : JsonRecord) (i : Nat) (read : Json → Option α) : Option (Option α) :=
  match r.field i with
  | none => if r.positional then none else some none
  | some j => nullable read j

end JsonRecord

end RowTyping
