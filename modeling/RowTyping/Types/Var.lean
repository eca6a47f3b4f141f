/-!
# Type and effect variables

Type variables stand for types and effect variables for the unknown rest of an effect row. The two
kinds are numbered independently. Numbers have no upper bound: where they are kept in 32 bits,
what is proved here holds as long as none reaches `2 ^ 32`.
-/

namespace RowTyping

/-- A type variable. -/
structure TypeVar where
  /-- The number that tells it from the other type variables. -/
  id : Nat
deriving DecidableEq, Repr, Inhabited

/-- An effect variable. -/
structure EffectVar where
  /-- The number that tells it from the other effect variables. -/
  id : Nat
deriving DecidableEq, Repr, Inhabited

/-- A variable of either kind. -/
inductive Var where
  /-- A type variable. -/
  | type (v : TypeVar)
  /-- An effect variable. -/
  | effect (e : EffectVar)
deriving DecidableEq, Repr, Inhabited

namespace TypeVar

instance : Ord TypeVar where
  compare v w := compare v.id w.id

theorem compare_def (v w : TypeVar) : compare v w = compare v.id w.id := rfl

instance : Std.LawfulEqOrd TypeVar where
  compare_self := by simp [compare_def]
  eq_of_compare {v w} h := by
    cases v
    cases w
    simpa [compare_def] using h

instance : Std.TransOrd TypeVar where
  eq_swap {v w} := by
    rw [compare_def, compare_def]
    exact Std.OrientedOrd.eq_swap
  isLE_trans {v w u} h h' := by
    rw [compare_def] at h h' ⊢
    exact Std.TransOrd.isLE_trans h h'

end TypeVar

namespace EffectVar

instance : Ord EffectVar where
  compare e f := compare e.id f.id

theorem compare_def (e f : EffectVar) : compare e f = compare e.id f.id := rfl

instance : Std.LawfulEqOrd EffectVar where
  compare_self := by simp [compare_def]
  eq_of_compare {e f} h := by
    cases e
    cases f
    simpa [compare_def] using h

instance : Std.TransOrd EffectVar where
  eq_swap {e f} := by
    rw [compare_def, compare_def]
    exact Std.OrientedOrd.eq_swap
  isLE_trans {e f g} h h' := by
    rw [compare_def] at h h' ⊢
    exact Std.TransOrd.isLE_trans h h'

end EffectVar

namespace Var

/-- The type variable, if it is one. -/
def type? : Var → Option TypeVar
  | .type v => some v
  | .effect _ => none

/-- The effect variable, if it is one. -/
def effect? : Var → Option EffectVar
  | .type _ => none
  | .effect e => some e

/-- Whether this is an effect variable. -/
def isEffect : Var → Bool
  | .type _ => false
  | .effect _ => true

end Var

end RowTyping
