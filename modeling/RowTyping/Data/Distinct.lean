/-!
# First occurrences

`distinct` keeps the first occurrence of every element of a list, in order. Its length counts the
different elements, which is how unification measures the variables it has still to bind.
-/

namespace RowTyping

variable {α : Type} [DecidableEq α]

/-- The list without repetitions, keeping first occurrences in order. -/
def distinct : List α → List α
  | [] => []
  | a :: as => a :: (distinct as).filter fun b => b ≠ a

/-- An element occurs among the first occurrences exactly when it occurs at all. -/
@[simp]
theorem mem_distinct {a : α} {as : List α} : a ∈ distinct as ↔ a ∈ as := by
  induction as with
  | nil => simp [distinct]
  | cons b bs ih =>
    by_cases h : a = b
    · simp [distinct, h]
    · simp [distinct, h, ih]

/-- First occurrences are pairwise different. -/
theorem nodup_distinct (as : List α) : (distinct as).Nodup := by
  induction as with
  | nil => simp [distinct]
  | cons a as ih =>
    simp only [distinct, List.nodup_cons, List.mem_filter]
    exact ⟨by simp, ih.filter _⟩

/-- One more element is a first occurrence unless it occurs before. -/
theorem distinct_concat (as : List α) (a : α) :
    distinct (as ++ [a]) = if a ∈ as then distinct as else distinct as ++ [a] := by
  induction as with
  | nil => simp [distinct]
  | cons b bs ih =>
    rw [List.cons_append, distinct, distinct, ih]
    by_cases hab : a = b
    · by_cases ha : a ∈ bs <;> simp_all
    · by_cases ha : a ∈ bs <;> simp_all

/-- A list without repetitions is no longer than a list that holds its elements. -/
theorem length_le_of_nodup_of_subset {as bs : List α} (hn : as.Nodup)
    (hs : ∀ a ∈ as, a ∈ bs) : as.length ≤ bs.length := by
  induction as generalizing bs with
  | nil => simp
  | cons a as ih =>
    have ha : a ∈ bs := hs a (by simp)
    have hlen := List.length_erase_of_mem ha
    have hpos := List.length_pos_of_mem ha
    have hrest : ∀ b ∈ as, b ∈ bs.erase a := fun b hb => by
      have hne : b ≠ a := by
        rintro rfl
        exact (List.nodup_cons.mp hn).1 hb
      exact (List.mem_erase_of_ne hne).mpr (hs b (by simp [hb]))
    have := ih (List.nodup_cons.mp hn).2 hrest
    simp only [List.length_cons]
    omega

/-- A list over fewer elements has at most as many different ones. -/
theorem length_distinct_le {as bs : List α} (hs : ∀ a ∈ as, a ∈ bs) :
    (distinct as).length ≤ (distinct bs).length :=
  length_le_of_nodup_of_subset (nodup_distinct as) fun a ha => by
    simpa using hs a (by simpa using ha)

/-- Losing an element altogether lowers the number of different ones. -/
theorem length_distinct_lt {as bs : List α} (hs : ∀ a ∈ as, a ∈ bs) {b : α}
    (hb : b ∈ bs) (hn : b ∉ as) : (distinct as).length < (distinct bs).length := by
  have hnodup : (b :: distinct as).Nodup :=
    List.nodup_cons.mpr ⟨by simpa using hn, nodup_distinct as⟩
  have hsub : ∀ a ∈ b :: distinct as, a ∈ distinct bs := fun a ha => by
    rcases List.mem_cons.mp ha with rfl | ha
    · simpa using hb
    · simpa using hs a (by simpa using ha)
  exact length_le_of_nodup_of_subset hnodup hsub

end RowTyping
