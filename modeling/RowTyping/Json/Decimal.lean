import RowTyping.Json.Basic

/-!
# Numbers in JSON text

A number is read digit by digit into a significand of at most 64 bits. Digits that no longer fit
only move the decimal point. A number with a fraction, an exponent or too many digits is the
significand scaled by a single power of ten, in steps of at most 308 places; each step rounds once.
-/

namespace RowTyping

/-- A number as it is written. -/
structure Decimal where
  /-- Whether it starts with a minus sign. -/
  negative : Bool
  /-- The digits before the decimal point. -/
  whole : List Nat
  /-- The digits after the decimal point, absent without one. -/
  fraction : Option (List Nat)
  /-- The exponent, absent without one. -/
  exponent : Option Int
deriving DecidableEq, Repr, Inhabited

namespace Decimal

/-- The largest significand. -/
def maxSignificand : Nat := Nat.pow 2 64 - 1

/-- The most places a single step scales by. -/
def maxScale : Nat := 308

/-- The value of a list of digits. -/
def digitsValue (digits : List Nat) : Nat :=
  digits.foldl (fun n d => 10 * n + d) 0

/-- Extend a significand by a digit. From the first digit on that does not fit, digits are only
counted. -/
def pushDigit : Nat × Nat → Nat → Nat × Nat
  | (n, dropped), d =>
    if dropped = 0 ∧ 10 * n + d ≤ maxSignificand then (10 * n + d, 0) else (n, dropped + 1)

/-- The significand of the whole part, and the number of digits that did not fit. -/
def readWhole (digits : List Nat) : Nat × Nat :=
  digits.foldl pushDigit (0, 0)

/-- The significand extended by the digits of the fraction that fit, and their number. -/
def readFraction (significand : Nat) : List Nat → Nat × Nat
  | [] => (significand, 0)
  | d :: digits =>
    if 10 * significand + d ≤ maxSignificand then
      let (n, read) := readFraction (10 * significand + d) digits
      (n, read + 1)
    else (significand, 0)

/-- The power of ten, rounded to the nearest floating point number. -/
def powerOfTen (places : Nat) : Float :=
  .ofScientific 1 false places

/-- Divide by a power of ten, in steps of at most `maxScale` places. -/
def scaleDown (x : Float) (places : Nat) : Float :=
  if places ≤ maxScale then x / powerOfTen places
  else if x == 0 then x
  else scaleDown (x / powerOfTen maxScale) (places - maxScale)
termination_by places
decreasing_by
  simp only [maxScale] at *
  omega

/-- The significand times a power of ten, unless that is out of range. -/
def scale (significand : Nat) (exponent : Int) : Option Float :=
  let x := Float.ofNat significand
  match exponent with
  | .negSucc n => some (scaleDown x (n + 1))
  | .ofNat places =>
    if places ≤ maxScale then
      let y := x * powerOfTen places
      if y.isInf then none else some y
    else if x == 0 then some x
    else none

/-- The JSON value of a number. -/
def toJson (d : Decimal) : Json :=
  let (whole, dropped) := readWhole d.whole
  if d.fraction.isNone ∧ d.exponent.isNone ∧ dropped = 0 then
    if !d.negative then .int whole
    else if 0 < whole ∧ whole ≤ Nat.pow 2 63 then .int (-whole)
    else .float (-Float.ofNat whole)
  else
    let (significand, read) := readFraction whole (d.fraction.getD [])
    match scale significand (dropped - read + d.exponent.getD 0) with
    | none => .unreadable
    | some x => .float (if d.negative then -x else x)

end Decimal

/-- Write a finite floating point number with all its decimal digits. -/
def Float.decimalDigits (x : Float) : String :=
  let bits := x.toBits.toNat
  let field := bits / Nat.pow 2 52 % Nat.pow 2 11
  let hidden := Nat.pow 2 52
  let mantissa := if field = 0 then bits % hidden else bits % hidden + hidden
  let sign := if bits / Nat.pow 2 63 = 0 then "" else "-"
  -- The number is `mantissa * 2 ^ (power - 1075)`.
  let power := if field = 0 then 1 else field
  if 1075 ≤ power then sign ++ toString (mantissa * Nat.pow 2 (power - 1075)) ++ ".0"
  else
    let places := 1075 - power
    let digits := toString (mantissa * Nat.pow 5 places)
    let padded := "".pushn '0' (places + 1 - digits.length) ++ digits
    sign ++ (padded.take (padded.length - places)).toString ++ "."
      ++ (padded.drop (padded.length - places)).toString

end RowTyping
