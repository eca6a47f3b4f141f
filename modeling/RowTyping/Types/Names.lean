import RowTyping.Data.Dict
import RowTyping.Data.Distinct
import RowTyping.Types.Basic

/-!
# Variables of a type and their display names

The variables of a type are listed in the order they are first written. Canonical names follow that
order through `a`, …, `z`, `a1`, …, `z1` and so on.
-/

namespace RowTyping

namespace Ty

/-- The variables of a type in order of first appearance. -/
def vars (t : Ty) : List Var :=
  distinct t.occurrences

/-- Every occurrence of a type variable, from left to right. -/
def typeOccurrences (t : Ty) : List TypeVar :=
  t.occurrences.filterMap Var.type?

/-- The type variables of a type, in increasing order. -/
def typeVars (t : Ty) : List TypeVar :=
  Sorted.ofList t.typeOccurrences

/-- The effect variables of a type, in increasing order. -/
def effectVars (t : Ty) : List EffectVar :=
  Sorted.ofList (t.occurrences.filterMap Var.effect?)

/-- How often an effect variable occurs in a type. -/
def effectCount (t : Ty) (e : EffectVar) : Nat :=
  t.occurrences.count (.effect e)

end Ty

/-- Names chosen for variables. -/
structure VarNames where
  /-- The names of type variables. -/
  types : Dict TypeVar String := {}
  /-- The names of effect variables. -/
  effects : Dict EffectVar String := {}
deriving DecidableEq, Repr, Inhabited

namespace VarNames

/-- Whether no variable has a name. -/
def isEmpty (names : VarNames) : Bool :=
  names.types.isEmpty && names.effects.isEmpty

/-- The chosen name of a variable. -/
def get? (names : VarNames) : Var → Option String
  | .type v => names.types.get? v
  | .effect e => names.effects.get? e

/-- Choose a name for a variable, replacing an earlier choice. -/
def insert (names : VarNames) (x : Var) (name : String) : VarNames :=
  match x with
  | .type v => { names with types := names.types.insert v name }
  | .effect e => { names with effects := names.effects.insert e name }

/-- Add the names of variables that have none yet. -/
def merge (names new : VarNames) : VarNames where
  types := new.types.entries.foldl (fun d entry => d.insertNew entry.1 entry.2) names.types
  effects := new.effects.entries.foldl (fun d entry => d.insertNew entry.1 entry.2) names.effects

/-- The name of a variable, or its number after `t` for types and `e` for effects. -/
def nameOf (names : VarNames) (x : Var) : String :=
  (names.get? x).getD <|
    match x with
    | .type v => "t" ++ toString v.id
    | .effect e => "e" ++ toString e.id

end VarNames

/-- The canonical names `a`, …, `z`, `a1`, …, `z1`, `a2`, … by index. -/
def letterName (index : Nat) : String :=
  let letter := String.singleton (Char.ofNat ('a'.toNat + index % 26))
  if index / 26 = 0 then letter else letter ++ toString (index / 26)

theorem toList_letterName (index : Nat) : (letterName index).toList =
    Char.ofNat ('a'.toNat + index % 26) :: if index / 26 = 0 then []
      else (index / 26).repr.toList := by
  simp only [letterName]
  split <;> simp

theorem toNat_letter : ∀ k < 26, (Char.ofNat ('a'.toNat + k)).toNat = 97 + k := by
  decide

/-- The canonical names are different. -/
theorem letterName_injective {i j : Nat} (h : letterName i = letterName j) : i = j := by
  have hlist := congrArg String.toList h
  rw [toList_letterName, toList_letterName, List.cons.injEq] at hlist
  obtain ⟨hletter, hnumber⟩ := hlist
  have hmod : i % 26 = j % 26 := by
    have hcode := congrArg Char.toNat hletter
    rw [toNat_letter _ (Nat.mod_lt _ (by decide)),
      toNat_letter _ (Nat.mod_lt _ (by decide))] at hcode
    omega
  have hdiv : i / 26 = j / 26 := by
    -- no number is written as nothing at all
    split at hnumber <;> split at hnumber
    · omega
    · exact absurd hnumber.symm (by simp)
    · exact absurd hnumber (by simp)
    · simpa using congrArg (Nat.ofDigitChars 10 · 0) hnumber
  omega

/-- Give canonical names to variables in the order they are listed. -/
def VarNames.canonical (xs : List Var) : VarNames :=
  (distinct xs).zipIdx.foldl (fun names entry => names.insert entry.1 (letterName entry.2)) {}

end RowTyping
