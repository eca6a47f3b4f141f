import Mathlib.Logic.Function.Basic
import RowTyping.Supply

/-!
# The variables a supply will hand out

A supply determines the ids it will draw. `Fresh.Upcoming` holds of the variables that are still to
come. In a supply whose ids are all different (`Fresh.Distinct`), a drawn variable was upcoming and
is not any more, and every other variable keeps its state. `Fresh.Later` is what survives any number
of draws.
-/

namespace RowTyping

namespace IdRange

/-- The ids that will be drawn, in order. -/
def upcoming (range : IdRange) (blocks : Blocks) : Nat → Nat
  | 0 => (range.draw blocks).1
  | n + 1 => upcoming (range.draw blocks).2.1 (range.draw blocks).2.2 n

/-- An endless range counts upwards. -/
@[simp]
theorem upcoming_startingAt (offset : Nat) (blocks : Blocks) (n : Nat) :
    (startingAt offset).upcoming blocks n = offset + n := by
  induction n generalizing offset with
  | zero => rfl
  | succ n ih =>
    -- an endless range never asks the pool for a block
    have hdraw : (startingAt offset).draw blocks = (offset, startingAt (offset + 1), blocks) := rfl
    rw [upcoming, hdraw, ih]
    omega

end IdRange

namespace Fresh

/-- The ids of the type variables that will be drawn, in order. -/
def upcomingTypes (f : Fresh) : Nat → Nat :=
  f.supply.types.upcoming f.pool.types

/-- The ids of the effect variables that will be drawn, in order. -/
def upcomingEffects (f : Fresh) : Nat → Nat :=
  f.supply.effects.upcoming f.pool.effects

/-- The variable will be drawn sooner or later. -/
def Upcoming (f : Fresh) : Var → Prop
  | .type v => ∃ n, f.upcomingTypes n = v.id
  | .effect e => ∃ n, f.upcomingEffects n = e.id

/-- No variable will be drawn twice. -/
structure Distinct (f : Fresh) : Prop where
  /-- The type variables to be drawn are different. -/
  types : Function.Injective f.upcomingTypes
  /-- The effect variables to be drawn are different. -/
  effects : Function.Injective f.upcomingEffects

/-- The second supply is left after drawing from the first one. -/
structure Later (f f' : Fresh) : Prop where
  /-- What is still to come was to come before. -/
  upcoming : ∀ {x}, f'.Upcoming x → f.Upcoming x
  /-- No variable will be drawn twice. -/
  distinct : f.Distinct → f'.Distinct

/-- The variable has been drawn between two states of a supply. -/
def HandedOut (f f' : Fresh) (x : Var) : Prop :=
  f.Upcoming x ∧ ¬ f'.Upcoming x

variable {f f' f'' : Fresh}

theorem Later.refl (f : Fresh) : f.Later f := ⟨id, id⟩

theorem Later.trans (h : f.Later f') (h' : f'.Later f'') : f.Later f'' :=
  ⟨fun hx => h.upcoming (h'.upcoming hx), fun hf => h'.distinct (h.distinct hf)⟩

/-- A variable drawn on a part of the way is drawn on the whole way. -/
theorem HandedOut.later {x : Var} (hx : f.HandedOut f' x) (h : f'.Later f'') :
    f.HandedOut f'' x :=
  ⟨hx.1, fun hup => hx.2 (h.upcoming hup)⟩

theorem HandedOut.earlier {x : Var} (hx : f'.HandedOut f'' x) (h : f.Later f') :
    f.HandedOut f'' x :=
  ⟨h.upcoming hx.1, hx.2⟩

/-! ## One draw -/

/-- A type variable is drawn in its turn. -/
theorem upcoming_typeVar (f : Fresh) : f.Upcoming (.type f.typeVar.1) := ⟨0, rfl⟩

theorem later_typeVar (f : Fresh) : f.Later f.typeVar.2 where
  upcoming {x} hx := by
    cases x with
    | type v => exact hx.elim fun n hn => ⟨n + 1, hn⟩
    | effect e => exact hx
  distinct hf :=
    ⟨fun m n h =>
      Nat.succ.inj (hf.types (show f.upcomingTypes (m + 1) = f.upcomingTypes (n + 1) from h)),
      hf.effects⟩

theorem Distinct.handedOut_typeVar (hf : f.Distinct) :
    f.HandedOut f.typeVar.2 (.type f.typeVar.1) :=
  ⟨f.upcoming_typeVar, fun ⟨n, hn⟩ =>
    Nat.succ_ne_zero n (hf.types (show f.upcomingTypes (n + 1) = f.upcomingTypes 0 from hn))⟩

/-- An effect variable is drawn in its turn. -/
theorem upcoming_effectVar (f : Fresh) : f.Upcoming (.effect f.effectVar.1) := ⟨0, rfl⟩

theorem later_effectVar (f : Fresh) : f.Later f.effectVar.2 where
  upcoming {x} hx := by
    cases x with
    | type v => exact hx
    | effect e => exact hx.elim fun n hn => ⟨n + 1, hn⟩
  distinct hf :=
    ⟨hf.types, fun m n h =>
      Nat.succ.inj (hf.effects (show f.upcomingEffects (m + 1) = f.upcomingEffects (n + 1) from h))⟩

theorem Distinct.handedOut_effectVar (hf : f.Distinct) :
    f.HandedOut f.effectVar.2 (.effect f.effectVar.1) :=
  ⟨f.upcoming_effectVar, fun ⟨n, hn⟩ =>
    Nat.succ_ne_zero n (hf.effects (show f.upcomingEffects (n + 1) = f.upcomingEffects 0 from hn))⟩

/-! ## Standalone supplies -/

/-- A standalone supply never repeats an id. -/
theorem distinct_standalone (typeOffset effectOffset : Nat) (pool : Pool) :
    (Fresh.mk (.standalone typeOffset effectOffset) pool).Distinct where
  types m n h := by
    simpa [upcomingTypes, Supply.standalone] using h
  effects m n h := by
    simpa [upcomingEffects, Supply.standalone] using h

theorem upcoming_standalone_type {typeOffset effectOffset : Nat} {pool : Pool} {v : TypeVar} :
    (Fresh.mk (.standalone typeOffset effectOffset) pool).Upcoming (.type v) ↔
      typeOffset ≤ v.id := by
  refine ⟨fun ⟨n, hn⟩ => ?_, fun h => ⟨v.id - typeOffset, ?_⟩⟩
  · simp only [upcomingTypes, Supply.standalone, IdRange.upcoming_startingAt] at hn
    omega
  · simp only [upcomingTypes, Supply.standalone, IdRange.upcoming_startingAt]
    omega

theorem upcoming_standalone_effect {typeOffset effectOffset : Nat} {pool : Pool} {e : EffectVar} :
    (Fresh.mk (.standalone typeOffset effectOffset) pool).Upcoming (.effect e) ↔
      effectOffset ≤ e.id := by
  refine ⟨fun ⟨n, hn⟩ => ?_, fun h => ⟨e.id - effectOffset, ?_⟩⟩
  · simp only [upcomingEffects, Supply.standalone, IdRange.upcoming_startingAt] at hn
    omega
  · simp only [upcomingEffects, Supply.standalone, IdRange.upcoming_startingAt]
    omega

end Fresh

end RowTyping
