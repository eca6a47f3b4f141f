import Mathlib.Logic.Relation
import Mathlib.Order.Monotone.Basic
import RowTyping.Proofs.Upcoming

/-!
# Supplies that share a pool

A supply that takes blocks from a pool draws increasing ids, as long as the blocks to come lie above
each other (`Blocks.Spaced`). What a new supply of the same pool will draw, the old one would have
drawn as well (`Fresh.Pooled.later_ready`), so whatever has been drawn before stays apart from what
the new one draws. `Fresh.Reaches` relates supplies by any number of draws.
-/

namespace RowTyping

/-- The blocks to come lie above each other. -/
def Blocks.Spaced (blocks : Blocks) : Prop :=
  ∀ k, blocks.taken ≤ k → blocks.start k + blockSize ≤ blocks.start (k + 1)

theorem Blocks.spaced_default : Blocks.Spaced {} :=
  fun k _ => by simp [Nat.mul_succ]

namespace IdRange

variable {range : IdRange} {blocks : Blocks}

/-- The range is the rest of a block below all blocks to come. -/
structure Below (range : IdRange) (blocks : Blocks) : Prop where
  spaced : blocks.Spaced
  bounded : ∃ stop, range.stop = some stop ∧ range.next ≤ stop ∧ stop ≤ blocks.start blocks.taken

theorem below_exhausted (h : blocks.Spaced) : exhausted.Below blocks :=
  ⟨h, 0, rfl, Nat.le_refl 0, Nat.zero_le _⟩

/-- A draw takes the next id of the block or the first one of the next block. -/
theorem Below.draw_cases (h : range.Below blocks) :
    (∃ stop, range.stop = some stop ∧ range.next < stop ∧
      range.draw blocks = (range.next, { range with next := range.next + 1 }, blocks)) ∨
    range.draw blocks = exhausted.draw blocks ∧ range.next ≤ blocks.start blocks.taken := by
  obtain ⟨stop, hstop, hle, hstart⟩ := h.bounded
  by_cases heq : range.next = stop
  · exact .inr ⟨by simp [draw, exhausted, hstop, heq], by omega⟩
  · exact .inl ⟨stop, hstop, by omega, by simp [draw, hstop, Ne.symm heq]⟩

theorem draw_exhausted (blocks : Blocks) : exhausted.draw blocks =
    (blocks.start blocks.taken,
      ⟨blocks.start blocks.taken + 1, some (blocks.start blocks.taken + blockSize)⟩,
      { blocks with taken := blocks.taken + 1 }) := by
  simp [draw, exhausted]

theorem Below.draw (h : range.Below blocks) :
    (range.draw blocks).2.1.Below (range.draw blocks).2.2 := by
  rcases h.draw_cases with ⟨stop, hstop, hlt, hdraw⟩ | ⟨hdraw, -⟩
  · obtain ⟨_, hstop', -, hstart⟩ := h.bounded
    cases hstop.symm.trans hstop'
    rw [hdraw]
    exact ⟨h.spaced, stop, hstop, hlt, hstart⟩
  · rw [hdraw, draw_exhausted]
    refine ⟨fun k hk => h.spaced k (Nat.le_of_succ_le hk), _, rfl, ?_, h.spaced _ (Nat.le_refl _)⟩
    simp [blockSize]

theorem Below.le_draw (h : range.Below blocks) : range.next ≤ (range.draw blocks).1 := by
  rcases h.draw_cases with ⟨_, -, -, hdraw⟩ | ⟨hdraw, hle⟩
  · rw [hdraw]
  · rw [hdraw, draw_exhausted]
    exact hle

theorem next_draw (range : IdRange) (blocks : Blocks) :
    (range.draw blocks).2.1.next = (range.draw blocks).1 + 1 := by
  rw [IdRange.draw]
  split <;> rfl

/-- Each draw gives a larger id than the one before. -/
theorem Below.draw_lt (h : range.Below blocks) :
    (range.draw blocks).1 < ((range.draw blocks).2.1.draw (range.draw blocks).2.2).1 := by
  have hle := h.draw.le_draw
  rwa [next_draw] at hle

theorem Below.strictMono_upcoming (h : range.Below blocks) :
    StrictMono (range.upcoming blocks) := by
  refine strictMono_nat_of_lt_succ fun n => ?_
  induction n generalizing range blocks with
  | zero => exact h.draw_lt
  | succ n ih => exact ih h.draw

theorem upcoming_congr {range' : IdRange} (h : range.draw blocks = range'.draw blocks) (n : Nat) :
    range.upcoming blocks n = range'.upcoming blocks n := by
  cases n <;> rw [upcoming, upcoming, h]

/-- What a new range of the same blocks will draw, a rest of an earlier block will draw as well. -/
theorem Below.exists_upcoming (h : range.Below blocks) (n : Nat) :
    ∃ m, range.upcoming blocks m = exhausted.upcoming blocks n := by
  obtain ⟨stop, hstop, hle, -⟩ := h.bounded
  induction hrest : stop - range.next generalizing range with
  | zero =>
    rcases h.draw_cases with ⟨_, hstop', hlt, -⟩ | ⟨hdraw, -⟩
    · cases hstop.symm.trans hstop'
      omega
    · exact ⟨n, upcoming_congr hdraw n⟩
  | succ rest ih =>
    rcases h.draw_cases with ⟨_, hstop', hlt, hdraw⟩ | ⟨hdraw, -⟩
    · have hnext := h.draw
      rw [hdraw] at hnext
      obtain ⟨m, hm⟩ := ih hnext hstop (show range.next + 1 ≤ stop by omega)
        (show stop - (range.next + 1) = rest by omega)
      exact ⟨m + 1, by rw [upcoming, hdraw, hm]⟩
    · exact ⟨n, upcoming_congr hdraw n⟩

end IdRange

/-- The blocks to come of both kinds lie above each other. -/
structure Pool.Spaced (pool : Pool) : Prop where
  types : pool.types.Spaced
  effects : pool.effects.Spaced

/-- A new supply of the pool. -/
def Pool.ready (pool : Pool) : Fresh :=
  { supply := .pooled, pool }

namespace Fresh

variable {f f' : Fresh}

/-- The supply holds the rests of blocks of its pool. -/
structure Pooled (f : Fresh) : Prop where
  types : f.supply.types.Below f.pool.types
  effects : f.supply.effects.Below f.pool.effects

theorem pooled_ready {pool : Pool} (h : pool.Spaced) : pool.ready.Pooled :=
  ⟨IdRange.below_exhausted h.types, IdRange.below_exhausted h.effects⟩

theorem Pooled.spaced (h : f.Pooled) : f.pool.Spaced :=
  ⟨h.types.spaced, h.effects.spaced⟩

theorem Pooled.typeVar (h : f.Pooled) : f.typeVar.2.Pooled :=
  ⟨h.types.draw, h.effects⟩

theorem Pooled.effectVar (h : f.Pooled) : f.effectVar.2.Pooled :=
  ⟨h.types, h.effects.draw⟩

/-- A supply that takes blocks from a pool never repeats an id. -/
theorem Pooled.distinct (h : f.Pooled) : f.Distinct :=
  ⟨h.types.strictMono_upcoming.injective, h.effects.strictMono_upcoming.injective⟩

/-- A new supply of the same pool draws nothing that has been drawn. -/
theorem Pooled.later_ready (h : f.Pooled) : f.Later f.pool.ready where
  upcoming {x} hx := by
    cases x with
    | type v =>
      obtain ⟨n, hn⟩ := hx
      obtain ⟨m, hm⟩ := h.types.exists_upcoming n
      exact ⟨m, hm.trans hn⟩
    | effect e =>
      obtain ⟨n, hn⟩ := hx
      obtain ⟨m, hm⟩ := h.effects.exists_upcoming n
      exact ⟨m, hm.trans hn⟩
  distinct _ := (pooled_ready h.spaced).distinct

/-! ## Any number of draws -/

/-- The second supply is left after some draws from the first one. -/
def Reaches : Fresh → Fresh → Prop :=
  Relation.ReflTransGen fun f f' => f' = f.typeVar.2 ∨ f' = f.effectVar.2

theorem reaches_typeVar (f : Fresh) : f.Reaches f.typeVar.2 :=
  .single (.inl rfl)

theorem reaches_effectVar (f : Fresh) : f.Reaches f.effectVar.2 :=
  .single (.inr rfl)

theorem Reaches.later (h : f.Reaches f') : f.Later f' := by
  induction h with
  | refl => exact .refl f
  | tail _ hstep ih =>
    rcases hstep with rfl | rfl
    · exact ih.trans (later_typeVar _)
    · exact ih.trans (later_effectVar _)

theorem Reaches.pooled (h : f.Reaches f') (hf : f.Pooled) : f'.Pooled := by
  induction h with
  | refl => exact hf
  | tail _ hstep ih =>
    rcases hstep with rfl | rfl
    · exact ih.typeVar
    · exact ih.effectVar

end Fresh

end RowTyping
