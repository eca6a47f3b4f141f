import Mathlib.Data.List.Nodup
import RowTyping.Data.Sorted

/-!
# Strictly increasing lists are finite sets

A strictly increasing list is determined by its members, `Sorted.ofList` produces one with the
members of its argument, and `Sorted.search` decides membership in one. Labels of effect rows are
kept in this form, so equality of rows is equality of label sets and tails.
-/

namespace RowTyping.Sorted

open List

variable {α : Type} [Ord α]

section Members

variable [Std.LawfulEqOrd α]

/-- Insertion adds one member. -/
theorem mem_insert {a b : α} {as : List α} : b ∈ insert a as ↔ b = a ∨ b ∈ as := by
  induction as with
  | nil => simp [insert]
  | cons c cs ih =>
    rw [insert]
    split
    · simp
    · rename_i h
      obtain rfl := Std.LawfulEqOrd.eq_of_compare h
      simp
    · simp only [mem_cons, ih]
      exact or_left_comm

/-- Putting a list into increasing order keeps its members. -/
@[simp]
theorem mem_ofList {b : α} {as : List α} : b ∈ ofList as ↔ b ∈ as := by
  induction as with
  | nil => simp [ofList]
  | cons a as ih =>
    change b ∈ insert a (ofList as) ↔ _
    rw [mem_insert, ih, mem_cons]

end Members

variable [Std.TransOrd α] [Std.LawfulEqOrd α]

/-- Insertion into a strictly increasing list keeps it so. -/
theorem isSorted_insert {a : α} {as : List α} (h : IsSorted as) : IsSorted (insert a as) := by
  induction as with
  | nil => exact pairwise_singleton _ _
  | cons b bs ih =>
    obtain ⟨hb, hbs⟩ := pairwise_cons.mp h
    rw [insert]
    split
    · rename_i hab
      refine pairwise_cons.mpr ⟨fun c hc => ?_, h⟩
      rcases mem_cons.mp hc with rfl | hc
      · exact hab
      · exact Std.TransCmp.lt_trans hab (hb c hc)
    · exact h
    · rename_i hab
      refine pairwise_cons.mpr ⟨fun c hc => ?_, ih hbs⟩
      rcases mem_insert.mp hc with rfl | hc
      · exact Std.OrientedCmp.gt_iff_lt.mp hab
      · exact hb c hc

/-- Every list put into increasing order is strictly increasing. -/
theorem isSorted_ofList (as : List α) : IsSorted (ofList as) := by
  induction as with
  | nil => exact List.Pairwise.nil
  | cons a as ih => exact isSorted_insert ih

omit [Std.TransOrd α] in
/-- A strictly increasing list has no repetitions. -/
theorem IsSorted.nodup {as : List α} (h : IsSorted as) : as.Nodup := by
  refine List.Pairwise.imp (fun {a b} hab => ?_) h
  rintro rfl
  simp at hab

/-- Strictly increasing lists with the same members are equal. -/
theorem IsSorted.eq_of_mem_iff {as bs : List α} (ha : IsSorted as) (hb : IsSorted bs)
    (h : ∀ a, a ∈ as ↔ a ∈ bs) : as = bs := by
  have hperm : as.Perm bs := (perm_ext_iff_of_nodup ha.nodup hb.nodup).mpr h
  refine hperm.eq_of_pairwise (fun a b _ _ hab hba => ?_) ha hb
  exact absurd hba (Std.OrientedCmp.not_lt_of_lt hab)

/-- A strictly increasing list is already in order. -/
theorem IsSorted.ofList_eq {as : List α} (h : IsSorted as) : ofList as = as :=
  (isSorted_ofList as).eq_of_mem_iff h fun _ => mem_ofList

/-- `ofList` depends only on the members of its argument. -/
theorem ofList_congr {as bs : List α} (h : ∀ a, a ∈ as ↔ a ∈ bs) : ofList as = ofList bs :=
  (isSorted_ofList as).eq_of_mem_iff (isSorted_ofList bs) fun a => by simp [h a]

theorem ofList_append_ofList (as bs cs : List α) :
    ofList (as ++ ofList (bs ++ cs)) = ofList (ofList (as ++ bs) ++ cs) :=
  ofList_congr fun a => by simp [or_assoc]

/-- With enough halvings the search finds exactly the members. -/
theorem searchWithin_eq_true_iff {a : α} {n : Nat} {as : List α} (hn : as.length ≤ n)
    (h : IsSorted as) : searchWithin a n as = true ↔ a ∈ as := by
  induction n generalizing as with
  | zero =>
    obtain rfl := length_eq_zero_iff.mp (Nat.le_zero.mp hn)
    simp [searchWithin]
  | succ n ih =>
    -- split the list at its middle element; the two halves lie on either side of it
    have hsplit := take_append_drop (as.length / 2) as
    rw [searchWithin]
    split
    · rename_i hdrop
      have hlen : as.length - as.length / 2 = 0 := by
        rw [← length_drop, hdrop, length_nil]
      have : as = [] := length_eq_zero_iff.mp (by omega)
      simp [this]
    · rename_i b larger hdrop
      rw [hdrop] at hsplit
      have hlens : (as.take (as.length / 2)).length + (larger.length + 1) = as.length := by
        rw [← length_cons, ← length_append, hsplit]
      rw [← hsplit] at h
      obtain ⟨hsmall, hrest, hcross⟩ := pairwise_append.mp h
      obtain ⟨hlarger, hlargerSorted⟩ := pairwise_cons.mp hrest
      have hsmaller : ∀ c ∈ as.take (as.length / 2), compare c b = .lt := fun c hc =>
        hcross c hc b (.head _ ..)
      have hmem : a ∈ as ↔ a ∈ as.take (as.length / 2) ∨ a = b ∨ a ∈ larger := by
        rw [← mem_cons, ← mem_append, hsplit]
      rw [hmem]
      split
      · rename_i hab
        rw [ih (by omega) hsmall]
        refine ⟨.inl, ?_⟩
        rintro (hc | rfl | hc)
        · exact hc
        · simp at hab
        · have := Std.TransCmp.lt_trans hab (hlarger a hc)
          simp at this
      · rename_i hab
        obtain rfl := Std.LawfulEqOrd.eq_of_compare hab
        simp
      · rename_i hab
        rw [ih (by omega) hlargerSorted]
        refine ⟨fun hc => .inr (.inr hc), ?_⟩
        rintro (hc | rfl | hc)
        · rw [hsmaller a hc] at hab
          cases hab
        · simp at hab
        · exact hc

/-- Binary search decides membership in a strictly increasing list. -/
theorem search_eq_true_iff {a : α} {as : List α} (h : IsSorted as) :
    search a as = true ↔ a ∈ as :=
  searchWithin_eq_true_iff (Nat.le_refl _) h

end RowTyping.Sorted
