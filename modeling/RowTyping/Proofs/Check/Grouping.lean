import RowTyping.Proofs.Check.Requirements
import RowTyping.Proofs.Naming

/-!
# Grouping of requirements

The requirements of a signature are grouped by trait. The groups stand in the order in which their
traits are first used, and each lists its requirements in the order of their first use
(`Given.Precedes`). Both orders are read off the grouped list as well, so grouping it once more
changes nothing.
-/

namespace RowTyping

open List

section FirstUse

variable {α : Type} [DecidableEq α]

/-- First occurrences stand in the order of their positions. -/
theorem pairwise_idxOf_distinct (as : List α) :
    (distinct as).Pairwise fun a b => as.idxOf a < as.idxOf b := by
  induction as with
  | nil => exact .nil
  | cons a as ih =>
    have hshift {b : α} (hb : b ∈ (distinct as).filter (· ≠ a)) :
        (a :: as).idxOf b = as.idxOf b + 1 := by
      have hne := of_decide_eq_true (mem_filter.mp hb).2
      exact idxOf_cons_ne as (Ne.symm hne)
    refine pairwise_cons.mpr ⟨fun b hb => ?_, (ih.filter _).imp_of_mem fun hb hc hlt => ?_⟩
    · rw [idxOf_cons_self, hshift hb]
      exact Nat.succ_pos _
    · rw [hshift hb, hshift hc]
      exact Nat.succ_lt_succ hlt

/-- Of two members of an ordered list, the one in front comes first. -/
theorem rel_of_idxOf_lt {R : α → α → Prop} {as : List α} (h : as.Pairwise R) {a b : α} (hb : b ∈ as)
    (hlt : as.idxOf a < as.idxOf b) : R a b := by
  have hlength := idxOf_lt_length_of_mem hb
  simpa using pairwise_iff_getElem.mp h _ _ (hlt.trans hlength) hlength hlt

end FirstUse

/-- The trait of the first requirement is used before that of the second one, or both are on one
trait and the first one is used first. -/
def Given.Precedes (givens : List Given) (g g' : Given) : Prop :=
  (givens.map (·.traitName)).idxOf g.traitName < (givens.map (·.traitName)).idxOf g'.traitName ∨
    g.traitName = g'.traitName ∧ givens.idxOf g < givens.idxOf g'

theorem pairwise_precedes_groupByTrait (givens : List Given) :
    (groupByTrait givens).Pairwise (Given.Precedes givens) := by
  rw [groupByTrait_eq]
  refine pairwise_flatMap.mpr ⟨fun name _ => ?_, ?_⟩
  · refine ((pairwise_idxOf_distinct givens).filter _).imp_of_mem fun hg hg' hlt => .inr ⟨?_, hlt⟩
    exact (of_decide_eq_true (mem_filter.mp hg).2).trans
      (of_decide_eq_true (mem_filter.mp hg').2).symm
  · refine (pairwise_idxOf_distinct _).imp fun {name name'} hlt g hg g' hg' => .inl ?_
    rwa [of_decide_eq_true (mem_filter.mp hg).2, of_decide_eq_true (mem_filter.mp hg').2]

/-- What precedes in a grouped list precedes in the list that was grouped. -/
theorem Given.Precedes.of_groupByTrait {givens : List Given} {g g' : Given} (hg' : g' ∈ givens)
    (h : Precedes (groupByTrait givens) g g') : Precedes givens g g' := by
  have hmem := mem_groupByTrait.mpr hg'
  have horder := pairwise_precedes_groupByTrait givens
  rcases h with hlt | ⟨-, hlt⟩
  · have htraits : ((groupByTrait givens).map (·.traitName)).Pairwise fun n n' => n ≠ n' →
        (givens.map (·.traitName)).idxOf n < (givens.map (·.traitName)).idxOf n' :=
      pairwise_map.mpr (horder.imp fun h hne => h.resolve_right fun heq => hne heq.1)
    exact .inl (rel_of_idxOf_lt htraits (mem_map_of_mem hmem) hlt fun heq => (heq ▸ hlt).false)
  · exact rel_of_idxOf_lt horder hmem hlt

theorem groupByTrait_groupByTrait (givens : List Given) :
    groupByTrait (groupByTrait givens) = groupByTrait givens := by
  have hmem (g : Given) : g ∈ groupByTrait (groupByTrait givens) ↔ g ∈ groupByTrait givens :=
    mem_groupByTrait
  have hperm := (perm_ext_iff_of_nodup (nodup_groupByTrait _) (nodup_groupByTrait _)).mpr hmem
  refine List.Perm.eq_of_pairwise
    (fun g g' _ _ h h' => ?_) ?_ (pairwise_precedes_groupByTrait givens) hperm
  · unfold Given.Precedes at h h'
    grind
  · refine (pairwise_precedes_groupByTrait _).imp_of_mem fun _ hg' h => h.of_groupByTrait ?_
    exact mem_groupByTrait.mp ((hmem _).mp hg')

/-- Grouping keeps every requirement and lists it once. The requirements of a trait stand together,
traits stand in the order of their first use, and so do the requirements of one trait. Grouping
again changes nothing. -/
theorem grouping_stable_lossless (givens : List Given) :
    (∀ g, g ∈ groupByTrait givens ↔ g ∈ givens) ∧ (groupByTrait givens).Nodup ∧
      (∀ name, (groupByTrait givens).filter (·.traitName = name) <:+: groupByTrait givens) ∧
      (groupByTrait givens).Pairwise (Given.Precedes givens) ∧
      groupByTrait (groupByTrait givens) = groupByTrait givens :=
  ⟨fun _ => mem_groupByTrait, nodup_groupByTrait givens, filter_isInfix_groupByTrait givens,
    pairwise_precedes_groupByTrait givens, groupByTrait_groupByTrait givens⟩

end RowTyping
