import Mathlib.Data.List.Forall2
import RowTyping.Coverage

/-!
# The search for missing patterns ends

A query is a matrix of patterns with the types of its columns. One step of the search passes on the
queries `Query.next` and puts its answer together from theirs (`Query.missing_eq_assemble`). The
column types may grow on the way, so the number of columns says nothing by itself: a split uses up a
head, and every other step leaves the heads alone and uses up a column
(`Query.headCount_lt_of_mem_next`, `Query.headCount_le_of_mem_next`). Neither the data types nor the
rows need to fit the columns for that.
-/

namespace RowTyping.Coverage

open List

/-- What the search is asked. -/
structure Query where
  /-- The rows of patterns. -/
  rows : List PatternRow
  /-- The types of the columns. -/
  columns : List Ty

namespace Query

variable (types : DataTypes)

/-- The answer to a query. -/
def missing (q : Query) : List (List Witness) :=
  Coverage.missing types q.rows q.columns

/-- Whether the first column is split by constructor. -/
def splits : Query → Bool
  | ⟨_, []⟩ => false
  | ⟨rows, t :: _⟩ => isComplete (casesOf types t) (heads rows)

/-- The queries that one step of the search passes on, in order. -/
def next : Query → List Query
  | ⟨_, []⟩ => []
  | q@⟨rows, t :: rest⟩ =>
    if q.splits types then
      (casesOf types t).map fun c => ⟨specialize c rows, c.fields ++ rest⟩
    else [⟨defaults rows, rest⟩]

/-- The answer to a query from the answers to those it passes on. -/
def assemble : Query → List (List (List Witness)) → List (List Witness)
  | ⟨rows, []⟩, _ => if rows.isEmpty then [[]] else []
  | q@⟨rows, t :: _⟩, answers =>
    if q.splits types then
      (List.zipWith (fun c answer => answer.map (gather c)) (casesOf types t) answers).flatten
    else
      (missingHeads (casesOf types t) (heads rows)).flatMap fun w => answers.flatten.map (w :: ·)

variable {types} {q q' : Query}

/-- The search looks at nothing but the answers to the queries it passes on. -/
theorem missing_eq_assemble (q : Query) :
    q.missing types = q.assemble types ((q.next types).map (missing types)) := by
  obtain ⟨rows, _ | ⟨t, rest⟩⟩ := q
  · rw [missing, Coverage.missing]
    rfl
  · rw [missing, Coverage.missing, assemble, next, splits]
    by_cases hsplit : isComplete (casesOf types t) (heads rows)
    · simp [hsplit, missing, zipWith_map_right, zipWith_self, flatMap_def]
    · simp [hsplit, missing]

theorem headCount_lt_of_mem_next (hq : q.splits types) (h : q' ∈ q.next types) :
    headCount q'.rows < headCount q.rows := by
  obtain ⟨rows, _ | ⟨t, rest⟩⟩ := q
  · cases h
  · rw [next, if_pos hq] at h
    obtain ⟨c, hc, rfl⟩ := mem_map.mp h
    exact headCount_specialize_lt (mem_heads_of_isComplete hq hc)

theorem headCount_le_of_mem_next (hq : ¬ q.splits types) (h : q' ∈ q.next types) :
    headCount q'.rows ≤ headCount q.rows ∧ ∃ t, q.columns = t :: q'.columns := by
  obtain ⟨rows, _ | ⟨t, rest⟩⟩ := q
  · cases h
  · rw [next, if_neg hq, mem_singleton] at h
    subst h
    exact ⟨headCount_default_le rows, t, rfl⟩

/-- The calls that the search makes for a query: the query itself, then those of the queries it
passes on. A search that does not end has none. -/
inductive Calls (types : DataTypes) : Query → List Query → Prop where
  | call {q : Query} {logs : List (List Query)} (h : Forall₂ (Calls types) (q.next types) logs) :
    Calls types q (q :: logs.flatten)

theorem exists_calls (types : DataTypes) (q : Query) : ∃ log, Calls types q log := by
  have hnext (q' : Query) (hq' : q' ∈ q.next types) : ∃ log, Calls types q' log :=
    exists_calls types q'
  choose! log hlog using hnext
  exact ⟨_, .call (forall₂_map_right_iff.mpr (forall₂_same.mpr hlog))⟩
termination_by (headCount q.rows, q.columns.length)
decreasing_by
  by_cases hq : q.splits types
  · exact Prod.Lex.left _ _ (headCount_lt_of_mem_next hq hq')
  · obtain ⟨hle, t, hcolumns⟩ := headCount_le_of_mem_next hq hq'
    exact Prod.Lex.right' _ hle (by simp [hcolumns])

/-- The search makes finitely many calls, for all data types, columns and rows. Every split strictly
decreases the number of heads in the matrix, and every other step removes a column and adds no
heads. -/
theorem finitely_many_calls (types : DataTypes) (q : Query) :
    q.missing types = q.assemble types ((q.next types).map (missing types)) ∧
    (∀ q' ∈ q.next types,
      (q.splits types → headCount q'.rows < headCount q.rows) ∧
      (¬ q.splits types → headCount q'.rows ≤ headCount q.rows ∧
        ∃ t, q.columns = t :: q'.columns)) ∧
    ∃ log, Calls types q log :=
  ⟨missing_eq_assemble q,
    fun _ h => ⟨(headCount_lt_of_mem_next · h), (headCount_le_of_mem_next · h)⟩,
      exists_calls types q⟩

end Query

end RowTyping.Coverage
