import Mathlib.Data.List.Nodup
import RowTyping.Proofs.Pool

/-!
# Supplies that draw in turns

Any number of supplies may draw from one pool, in any order. Each of them holds the rest of a block,
and a draw that finds its rest empty takes the next block. Nothing is drawn twice, since the rests
are apart from each other, from what has been drawn and from the blocks to come (`IdRange.Apart`),
and a draw keeps this up (`IdRange.Apart.draw`).
-/

namespace RowTyping

open List

/-- The kinds of variables, which are numbered independently. -/
inductive VarKind where
  | type | effect
deriving DecidableEq, Repr

namespace Var

/-- The kind of a variable. -/
def kind : Var → VarKind
  | .type _ => .type
  | .effect _ => .effect

/-- The number that tells a variable from the others of its kind. -/
def id : Var → Nat
  | .type v => v.id
  | .effect e => e.id

end Var

/-- The ids that a supply holds for a kind of variable. -/
def Supply.range (supply : Supply) : VarKind → IdRange
  | .type => supply.types
  | .effect => supply.effects

/-- The blocks of ids for a kind of variable. -/
def Pool.blocks (pool : Pool) : VarKind → Blocks
  | .type => pool.types
  | .effect => pool.effects

/-- The first id that has not been given to a supply. -/
def Blocks.counter (blocks : Blocks) : Nat :=
  blocks.start blocks.taken

/-- Supplies by index, and the pool they share. -/
structure Supplies (ι : Type) where
  /-- The state of each supply; those that have not drawn yet hold nothing. -/
  supply : ι → Supply := fun _ => .pooled
  /-- The pool that all supplies take blocks from. -/
  pool : Pool := {}

namespace Supplies

variable {ι : Type} [DecidableEq ι]

/-- The state after a draw that has changed one supply and the pool. -/
def put (st : Supplies ι) (i : ι) (f : Fresh) : Supplies ι :=
  ⟨Function.update st.supply i f.supply, f.pool⟩

/-- One of the supplies draws a variable of the given kind. -/
def draw (st : Supplies ι) (i : ι) (kind : VarKind) : Var × Supplies ι :=
  let f : Fresh := ⟨st.supply i, st.pool⟩
  match kind with
  | .type => (.type f.typeVar.1, st.put i f.typeVar.2)
  | .effect => (.effect f.effectVar.1, st.put i f.effectVar.2)

/-- The supplies draw in turns. All draws are listed, each with the supply that made it. -/
def run (st : Supplies ι) : List (ι × VarKind) → List (ι × Var) × Supplies ι
  | [] => ([], st)
  | (i, kind) :: turns =>
    let rest := (st.draw i kind).2.run turns
    ((i, (st.draw i kind).1) :: rest.1, rest.2)

end Supplies

/-- The drawn ids of one kind, each with the supply that drew it. -/
def drawnIds {ι : Type} (kind : VarKind) (drawn : List (ι × Var)) : List (ι × Nat) :=
  (drawn.filter (·.2.kind = kind)).map fun d => (d.1, d.2.id)

/-! ## Ranges that are apart -/

namespace IdRange

variable {ι : Type} {range : IdRange} {ranges : ι → IdRange} {blocks : Blocks} {id : Nat}
  {drawn : List (ι × Nat)}

/-- The range still has the id. -/
def Holds (range : IdRange) (id : Nat) : Prop :=
  range.next ≤ id ∧ ∃ stop, range.stop = some stop ∧ id < stop

theorem Below.lt_counter (h : range.Below blocks) (hid : range.Holds id) : id < blocks.counter := by
  obtain ⟨stop, hstop, -, hle⟩ := h.bounded
  obtain ⟨-, _, hstop', hlt⟩ := hid
  cases hstop.symm.trans hstop'
  exact Nat.lt_of_lt_of_le hlt hle

/-- A drawn id was held by the range, or no range could hold it before; after the draw it is below
the counter. -/
theorem Below.holds_or_fresh (h : range.Below blocks) :
    (range.Holds (range.draw blocks).1 ∨ blocks.counter ≤ (range.draw blocks).1) ∧
      blocks.counter ≤ (range.draw blocks).2.2.counter ∧
      (range.draw blocks).1 < (range.draw blocks).2.2.counter := by
  rcases h.draw_cases with ⟨stop, hstop, hlt, hdraw⟩ | ⟨hdraw, -⟩
  · have hholds : range.Holds range.next := ⟨Nat.le_refl _, stop, hstop, hlt⟩
    rw [hdraw]
    exact ⟨.inl hholds, Nat.le_refl _, h.lt_counter hholds⟩
  · have hspaced := h.spaced blocks.taken (Nat.le_refl _)
    rw [hdraw, draw_exhausted]
    simp only [Blocks.counter, blockSize] at hspaced ⊢
    exact ⟨.inr (Nat.le_refl _), by omega, by omega⟩

/-- After a draw, the range holds what it held before or ids of a block that nobody had. -/
theorem Below.holds_draw (h : range.Below blocks) (hid : (range.draw blocks).2.1.Holds id) :
    range.Holds id ∨ blocks.counter ≤ id := by
  obtain ⟨hnext, stop, hstop, hlt⟩ := hid
  rw [next_draw] at hnext
  have hle := h.le_draw
  rcases h.draw_cases with ⟨_, -, -, hdraw⟩ | ⟨hdraw, -⟩
  · rw [hdraw] at hstop hnext
    exact .inl ⟨Nat.le_of_succ_le hnext, stop, hstop, hlt⟩
  · rw [hdraw, draw_exhausted] at hnext
    exact .inr (Nat.le_of_succ_le hnext)

/-- Between draws, the ranges are rests of blocks and apart from each other and from what has been
drawn. Each range has drawn increasing ids, all below the next one it will draw. -/
structure Apart (ranges : ι → IdRange) (blocks : Blocks) (drawn : List (ι × Nat)) : Prop where
  below : ∀ i, (ranges i).Below blocks
  apart : ∀ {i j id}, (ranges i).Holds id → (ranges j).Holds id → i = j
  spent : ∀ d ∈ drawn, d.2 < blocks.counter ∧ d.2 < (ranges d.1).next ∧ ∀ i, ¬ (ranges i).Holds d.2
  ordered : drawn.Pairwise fun d d' => d.2 ≠ d'.2 ∧ (d.1 = d'.1 → d.2 < d'.2)

theorem apart_exhausted (h : blocks.Spaced) : Apart (fun _ : ι => exhausted) blocks [] where
  below _ := below_exhausted h
  apart := fun ⟨_, _, hstop, hlt⟩ => by
    cases hstop
    omega
  spent := by simp
  ordered := .nil

/-- A drawn id has not been drawn before, and is larger than all that its range has drawn. -/
theorem Apart.not_drawn (h : Apart ranges blocks drawn) (i : ι) {d : ι × Nat} (hd : d ∈ drawn) :
    d.2 ≠ ((ranges i).draw blocks).1 ∧ (d.1 = i → d.2 < ((ranges i).draw blocks).1) := by
  obtain ⟨hcounter, hnext, hheld⟩ := h.spent d hd
  refine ⟨fun heq => ?_, ?_⟩
  · rcases (h.below i).holds_or_fresh.1 with hholds | hfresh
    · exact hheld i (heq ▸ hholds)
    · omega
  · rintro rfl
    exact Nat.lt_of_lt_of_le hnext (h.below _).le_draw

variable [DecidableEq ι]

/-- What a range holds after a draw, it held before, or it has drawn and nobody had it. -/
theorem Apart.holds_update (h : Apart ranges blocks drawn) {i j : ι}
    (hj : (Function.update ranges i ((ranges i).draw blocks).2.1 j).Holds id) :
    (ranges j).Holds id ∨ j = i ∧ blocks.counter ≤ id := by
  rcases eq_or_ne j i with rfl | hne
  · rw [Function.update_self] at hj
    exact ((h.below j).holds_draw hj).imp_right fun hle => ⟨rfl, hle⟩
  · rw [Function.update_of_ne hne] at hj
    exact .inl hj

/-- A draw keeps the ranges apart. -/
theorem Apart.draw (h : Apart ranges blocks drawn) (i : ι) :
    Apart (Function.update ranges i ((ranges i).draw blocks).2.1) ((ranges i).draw blocks).2.2
      (drawn ++ [(i, ((ranges i).draw blocks).1)]) := by
  obtain ⟨hid, hcounter, hlt⟩ := (h.below i).holds_or_fresh
  refine ⟨fun j => ?_, fun {j k id} hj hk => ?_, fun d hd => ?_, ?_⟩
  · rcases eq_or_ne j i with rfl | hne
    · rw [Function.update_self]
      exact (h.below j).draw
    · obtain ⟨stop, hstop, hle, hbelow⟩ := (h.below j).bounded
      rw [Function.update_of_ne hne]
      exact ⟨(h.below i).draw.spaced, stop, hstop, hle, Nat.le_trans hbelow hcounter⟩
  · rcases h.holds_update hj with hj | ⟨hji, hle⟩ <;> rcases h.holds_update hk with hk | ⟨hki, hle'⟩
    · exact h.apart hj hk
    · exact absurd ((h.below j).lt_counter hj) (Nat.not_lt.mpr hle')
    · exact absurd ((h.below k).lt_counter hk) (Nat.not_lt.mpr hle)
    · exact hji.trans hki.symm
  · rcases mem_append.mp hd with hd | hd
    · obtain ⟨hdrawn, hnext, hheld⟩ := h.spent d hd
      refine ⟨Nat.lt_of_lt_of_le hdrawn hcounter, ?_, fun j hj => ?_⟩
      · rcases eq_or_ne d.1 i with heq | hne
        · rw [heq, Function.update_self, next_draw]
          exact Nat.lt_succ_of_lt ((h.not_drawn i hd).2 heq)
        · rwa [Function.update_of_ne hne]
      · rcases h.holds_update hj with hj | ⟨-, hle⟩
        · exact hheld j hj
        · exact Nat.not_lt.mpr hle hdrawn
    · obtain rfl := mem_singleton.mp hd
      refine ⟨hlt, ?_, fun j hj => ?_⟩
      · rw [Function.update_self, next_draw]
        exact Nat.lt_succ_self _
      · rcases eq_or_ne j i with rfl | hne
        · rw [Function.update_self] at hj
          exact Nat.not_succ_le_self _ (next_draw .. ▸ hj.1)
        · -- another range holds neither an id of this one nor one above the counter
          rw [Function.update_of_ne hne] at hj
          rcases hid with hid | hle
          · exact hne (h.apart hj hid)
          · exact Nat.not_lt.mpr hle ((h.below j).lt_counter hj)
  · refine pairwise_append.mpr ⟨h.ordered, pairwise_singleton _ _, fun d hd d' hd' => ?_⟩
    obtain rfl := mem_singleton.mp hd'
    exact h.not_drawn i hd

end IdRange

/-! ## Draws in turns -/

namespace Supplies

variable {ι : Type} [DecidableEq ι]

/-- The ranges of both kinds are apart, and apart from what has been drawn. -/
def Apart (st : Supplies ι) (drawn : List (ι × Var)) : Prop :=
  ∀ kind, IdRange.Apart (fun i => (st.supply i).range kind) (st.pool.blocks kind)
    (drawnIds kind drawn)

theorem kind_draw (st : Supplies ι) (i : ι) (kind : VarKind) : (st.draw i kind).1.kind = kind := by
  cases kind <;> rfl

theorem range_put (st : Supplies ι) (i : ι) (f : Fresh) (kind : VarKind) :
    (fun j => ((st.put i f).supply j).range kind) =
      Function.update (fun j => (st.supply j).range kind) i (f.supply.range kind) :=
  funext fun j => Function.apply_update (fun _ supply => supply.range kind) st.supply i f.supply j

/-- A draw changes the range of its supply and the blocks of its kind, as the range says. -/
theorem draw_same (st : Supplies ι) (i : ι) (kind : VarKind) :
    let drawn := ((st.supply i).range kind).draw (st.pool.blocks kind)
    (st.draw i kind).1.id = drawn.1 ∧ (st.draw i kind).2.pool.blocks kind = drawn.2.2 ∧
      (fun j => ((st.draw i kind).2.supply j).range kind) =
        Function.update (fun j => (st.supply j).range kind) i drawn.2.1 := by
  cases kind with
  | type => exact ⟨rfl, rfl, st.range_put i _ .type⟩
  | effect => exact ⟨rfl, rfl, st.range_put i _ .effect⟩

/-- A draw of one kind leaves the other kind alone. -/
theorem draw_other (st : Supplies ι) (i : ι) {kind kind' : VarKind} (hne : kind ≠ kind') :
    (st.draw i kind).2.pool.blocks kind' = st.pool.blocks kind' ∧
      (fun j => ((st.draw i kind).2.supply j).range kind') =
        fun j => (st.supply j).range kind' := by
  cases kind with
  | type =>
    cases kind' with
    | type => exact absurd rfl hne
    | effect => exact ⟨rfl, (st.range_put i _ .effect).trans (Function.update_eq_self i _)⟩
  | effect =>
    cases kind' with
    | type => exact ⟨rfl, (st.range_put i _ .type).trans (Function.update_eq_self i _)⟩
    | effect => exact absurd rfl hne

theorem Apart.draw {st : Supplies ι} {drawn : List (ι × Var)} (h : st.Apart drawn) (i : ι)
    (kind : VarKind) : (st.draw i kind).2.Apart (drawn ++ [(i, (st.draw i kind).1)]) := by
  intro kind'
  by_cases hkind : kind = kind'
  · subst hkind
    obtain ⟨hid, hblocks, hranges⟩ := st.draw_same i kind
    have hdrawn : drawnIds kind (drawn ++ [(i, (st.draw i kind).1)]) =
        drawnIds kind drawn ++ [(i, (st.draw i kind).1.id)] := by
      simp [drawnIds, kind_draw]
    rw [hdrawn, hid, hblocks, hranges]
    exact (h kind).draw i
  · obtain ⟨hblocks, hranges⟩ := st.draw_other i hkind
    have hdrawn : drawnIds kind' (drawn ++ [(i, (st.draw i kind).1)]) = drawnIds kind' drawn := by
      simp [drawnIds, kind_draw, hkind]
    rw [hdrawn, hblocks, hranges]
    exact h kind'

/-- Draws in turns keep the ranges apart. -/
theorem Apart.run {st : Supplies ι} {drawn : List (ι × Var)} (h : st.Apart drawn)
    (turns : List (ι × VarKind)) : (st.run turns).2.Apart (drawn ++ (st.run turns).1) := by
  induction turns generalizing st drawn with
  | nil => simpa [Supplies.run] using h
  | cons turn turns ih =>
    obtain ⟨i, kind⟩ := turn
    simpa [Supplies.run] using ih (h.draw i kind)

theorem kinds_run (st : Supplies ι) (turns : List (ι × VarKind)) :
    (st.run turns).1.map (fun d => (d.1, d.2.kind)) = turns := by
  induction turns generalizing st with
  | nil => rfl
  | cons turn turns ih => simp [Supplies.run, kind_draw, ih]

/-- Supplies of a new pool never draw an id twice, in whatever order they draw, and each of them
draws increasing ids. All ids drawn are below the counter of the pool. -/
theorem pooled_draws_distinct (isTracing : Bool) (turns : List (ι × VarKind)) :
    let (drawn, st) := run { pool := { isTracing } } turns
    drawn.map (fun d => (d.1, d.2.kind)) = turns ∧
      ∀ kind, ((drawnIds kind drawn).map (·.2)).Nodup ∧
        (∀ i, (((drawnIds kind drawn).filter (·.1 = i)).map (·.2)).Pairwise (· < ·)) ∧
        ∀ d ∈ drawnIds kind drawn, d.2 < (st.pool.blocks kind).counter := by
  have hnew : Apart (ι := ι) { pool := { isTracing } } [] := by
    intro kind
    cases kind <;> exact IdRange.apart_exhausted Blocks.spaced_default
  refine ⟨kinds_run _ turns, fun kind => ?_⟩
  have h : IdRange.Apart _ _ (drawnIds kind (run _ turns).1) := hnew.run turns kind
  refine ⟨pairwise_map.mpr (h.ordered.imp And.left), fun i => ?_, fun d hd => (h.spent d hd).1⟩
  rw [pairwise_map]
  refine (h.ordered.filter _).imp_of_mem fun {d d'} hd hd' hlt => hlt.2 ?_
  have hi := (mem_filter.mp hd).2
  have hi' := (mem_filter.mp hd').2
  exact (of_decide_eq_true hi).trans (of_decide_eq_true hi').symm

end Supplies

end RowTyping
