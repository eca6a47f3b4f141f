import RowTyping.Json.Decimal

/-!
# Reading JSON text

The reader is strict: no comments, no trailing commas, no unquoted or raw control characters, and
nothing but blanks around the value. It works on a list of characters and hands back what is left.
-/

namespace RowTyping.Json

/-- Drop leading blanks. -/
def skipBlanks (cs : List Char) : List Char :=
  cs.dropWhile fun c => c = ' ' || c = '\n' || c = '\t' || c = '\r'

/-- The value of a hexadecimal digit. -/
def hexDigit? (c : Char) : Option Nat :=
  if c.isDigit then some (c.toNat - '0'.toNat)
  else if 'a' ≤ c ∧ c ≤ 'f' then some (c.toNat - 'a'.toNat + 10)
  else if 'A' ≤ c ∧ c ≤ 'F' then some (c.toNat - 'A'.toNat + 10)
  else none

/-- The value of four hexadecimal digits. -/
def hexValue? (a b c d : Char) : Option Nat := do
  return (((← hexDigit? a) * 16 + (← hexDigit? b)) * 16 + (← hexDigit? c)) * 16 + (← hexDigit? d)

/-- The character a letter stands for after a backslash. -/
def simpleEscape? : Char → Option Char
  | '"' => some '"'
  | '\\' => some '\\'
  | '/' => some '/'
  | 'b' => some '\x08'
  | 'f' => some '\x0c'
  | 'n' => some '\n'
  | 'r' => some '\r'
  | 't' => some '\t'
  | _ => none

/-- Whether a code unit is the first half of a surrogate pair. -/
def isHighSurrogate (n : Nat) : Bool := 0xD800 ≤ n && n < 0xDC00

/-- Whether a code unit is the second half of a surrogate pair. -/
def isLowSurrogate (n : Nat) : Bool := 0xDC00 ≤ n && n < 0xE000

/-- What has been read of a string. -/
structure PartialString where
  /-- The characters in reverse, absent after an unpaired surrogate. -/
  chars : Option (List Char) := some []
  /-- A first half of a surrogate pair that waits for the second. -/
  high : Option Nat := none

namespace PartialString

/-- Add a character. -/
def push (s : PartialString) (c : Char) : PartialString :=
  { chars := if s.high.isSome then none else s.chars.map (c :: ·) }

/-- Add a code unit written in hexadecimal digits. -/
def pushUnit (s : PartialString) (n : Nat) : PartialString :=
  match s.high with
  | some h =>
    if isLowSurrogate n then
      { chars := s.chars.map (Char.ofNat (0x10000 + (h - 0xD800) * 0x400 + (n - 0xDC00)) :: ·) }
    else { chars := none, high := if isHighSurrogate n then some n else none }
  | none =>
    if isHighSurrogate n then { s with high := some n }
    else if isLowSurrogate n then { chars := none }
    else s.push (Char.ofNat n)

/-- The text of a complete string, absent if a surrogate was unpaired. -/
def text? (s : PartialString) : Option String :=
  if s.high.isSome then none else s.chars.map fun chars => String.ofList chars.reverse

end PartialString

/-- Read the rest of a string up to its closing quote. -/
def readString (s : PartialString) : List Char → Option (Option String × List Char)
  | [] => none
  | '"' :: cs => some (s.text?, cs)
  | '\\' :: 'u' :: a :: b :: c :: d :: cs =>
    match hexValue? a b c d with
    | some n => readString (s.pushUnit n) cs
    | none => none
  | '\\' :: c :: cs =>
    match simpleEscape? c with
    | some e => readString (s.push e) cs
    | none => none
  | c :: cs => if c.toNat < 0x20 then none else readString (s.push c) cs

/-- Split off leading digits. -/
def readDigits (cs : List Char) : List Nat × List Char :=
  ((cs.takeWhile Char.isDigit).map fun c => c.toNat - '0'.toNat, cs.dropWhile Char.isDigit)

/-- Read the fraction of a number, which has at least one digit after the point. -/
def readFraction : List Char → Option (Option (List Nat) × List Char)
  | '.' :: cs =>
    let (digits, cs) := readDigits cs
    if digits.isEmpty then none else some (some digits, cs)
  | cs => some (none, cs)

/-- Read the digits of an exponent whose sign has been read. There is at least one. -/
def readScale (negative : Bool) (cs : List Char) : Option (Option Int × List Char) :=
  let (digits, cs) := readDigits cs
  if digits.isEmpty then none
  else
    let n := Decimal.digitsValue digits
    some (some (if negative then -n else n), cs)

/-- Read the exponent of a number. -/
def readExponent : List Char → Option (Option Int × List Char)
  | c :: cs =>
    if c = 'e' || c = 'E' then
      match cs with
      | '-' :: cs => readScale true cs
      | '+' :: cs => readScale false cs
      | cs => readScale false cs
    else some (none, c :: cs)
  | [] => some (none, [])

/-- Read a number whose sign has been read. The whole part has no leading zeros. -/
def readUnsigned (negative : Bool) (cs : List Char) : Option (Decimal × List Char) := do
  let (whole, cs) := readDigits cs
  guard (!whole.isEmpty && (whole.length = 1 || whole.head? ≠ some 0))
  let (fraction, cs) ← readFraction cs
  let (exponent, cs) ← readExponent cs
  return ({ negative, whole, fraction, exponent }, cs)

/-- Read a number. -/
def readNumber : List Char → Option (Decimal × List Char)
  | '-' :: cs => readUnsigned true cs
  | cs => readUnsigned false cs

mutual

/-- Read a value. The first argument bounds the number of nested calls. -/
def readValue : Nat → List Char → Option (Json × List Char)
  | 0, _ => none
  | n + 1, cs =>
    match skipBlanks cs with
    | 'n' :: 'u' :: 'l' :: 'l' :: cs => some (.null, cs)
    | 't' :: 'r' :: 'u' :: 'e' :: cs => some (.bool true, cs)
    | 'f' :: 'a' :: 'l' :: 's' :: 'e' :: cs => some (.bool false, cs)
    | '"' :: cs => do
      let (text, cs) ← readString {} cs
      return (text.elim .unreadable .string, cs)
    | '[' :: cs =>
      match skipBlanks cs with
      | ']' :: cs => some (.array [], cs)
      | cs => do
        let (items, cs) ← readItems n cs
        return (.array items, cs)
    | '{' :: cs =>
      match skipBlanks cs with
      | '}' :: cs => some (.object [], cs)
      | cs => do
        let (members, cs) ← readMembers n cs
        return (members.elim .unreadable .object, cs)
    | cs => do
      let (number, cs) ← readNumber cs
      return (number.toJson, cs)

/-- Read the items of an array up to its closing bracket. -/
def readItems : Nat → List Char → Option (List Json × List Char)
  | 0, _ => none
  | n + 1, cs => do
    let (item, cs) ← readValue n cs
    match skipBlanks cs with
    | ']' :: cs => return ([item], cs)
    | ',' :: cs => do
      let (items, cs) ← readItems n cs
      return (item :: items, cs)
    | _ => none

/-- Read the members of an object up to its closing brace. They are absent if a key has no text. -/
def readMembers : Nat → List Char → Option (Option (List (String × Json)) × List Char)
  | 0, _ => none
  | n + 1, cs =>
    match skipBlanks cs with
    | '"' :: cs => do
      let (key, cs) ← readString {} cs
      match skipBlanks cs with
      | ':' :: cs => do
        let (value, cs) ← readValue n cs
        match skipBlanks cs with
        | '}' :: cs => return (key.map fun key => [(key, value)], cs)
        | ',' :: cs => do
          let (members, cs) ← readMembers n cs
          return (key.bind fun key => members.map ((key, value) :: ·), cs)
        | _ => none
      | _ => none
    | _ => none

end

/-- Read a text that is one JSON value with blanks around it. Every nested call consumes a
character, so the length of the text bounds their number. -/
def parse? (text : String) : Option Json := do
  let cs := text.toList
  let (value, rest) ← readValue (cs.length + 1) cs
  guard (skipBlanks rest).isEmpty
  return value

end RowTyping.Json
