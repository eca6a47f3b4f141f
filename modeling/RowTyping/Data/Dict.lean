/-!
# Finite maps in key order

A `Dict` lists its entries with increasing keys, one entry a key. Two dictionaries built by `insert`
with the same look-ups are equal, and traversals go through the keys in order.
-/

namespace RowTyping

/-- A finite map, as the list of its entries in increasing order of keys. -/
structure Dict (κ α : Type) where
  /-- The entries, in increasing order of keys. -/
  entries : List (κ × α) := []
deriving DecidableEq, Repr, Inhabited

namespace Dict

variable {κ α β : Type}

/-- The map without entries. -/
def empty : Dict κ α := {}

/-- The number of entries. -/
def size (d : Dict κ α) : Nat :=
  d.entries.length

/-- Whether there are no entries. -/
def isEmpty (d : Dict κ α) : Bool :=
  d.entries.isEmpty

/-- The keys in increasing order. -/
def keys (d : Dict κ α) : List κ :=
  d.entries.map (·.1)

/-- The values in increasing order of their keys. -/
def values (d : Dict κ α) : List α :=
  d.entries.map (·.2)

/-- The value of the first entry with the given key. -/
def lookup [DecidableEq κ] (k : κ) : List (κ × α) → Option α
  | [] => none
  | (k', a) :: rest => if k = k' then some a else lookup k rest

/-- The value stored under a key. -/
def get? [DecidableEq κ] (d : Dict κ α) (k : κ) : Option α :=
  lookup k d.entries

/-- Whether a key has a value. -/
def contains [DecidableEq κ] (d : Dict κ α) (k : κ) : Bool :=
  (d.get? k).isSome

/-- Put an entry at its place in an ordered list of entries, replacing one with the same key. -/
def place [Ord κ] (k : κ) (a : α) : List (κ × α) → List (κ × α)
  | [] => [(k, a)]
  | (k', a') :: rest =>
    match compare k k' with
    | .lt => (k, a) :: (k', a') :: rest
    | .eq => (k, a) :: rest
    | .gt => (k', a') :: place k a rest

/-- Store a value under a key, replacing an earlier one. -/
def insert [Ord κ] (d : Dict κ α) (k : κ) (a : α) : Dict κ α :=
  ⟨place k a d.entries⟩

/-- Store a value under a key that has none yet. -/
def insertNew [Ord κ] [DecidableEq κ] (d : Dict κ α) (k : κ) (a : α) : Dict κ α :=
  if d.contains k then d else d.insert k a

/-- Forget the entry of a key. -/
def erase [DecidableEq κ] (d : Dict κ α) (k : κ) : Dict κ α :=
  ⟨d.entries.filter fun entry => entry.1 ≠ k⟩

/-- Insert entries from left to right, a later one replacing an earlier one with its key. -/
def ofList [Ord κ] (entries : List (κ × α)) : Dict κ α :=
  entries.foldl (fun d entry => d.insert entry.1 entry.2) empty

section Lemmas

variable [DecidableEq κ] [Ord κ] [Std.LawfulEqOrd κ]

theorem lookup_place (k k' : κ) (a : α) (entries : List (κ × α)) :
    lookup k' (place k a entries) = if k' = k then some a else lookup k' entries := by
  induction entries with
  | nil => rfl
  | cons entry rest ih =>
    obtain ⟨k₀, a₀⟩ := entry
    simp only [place]
    split
    · rfl
    · rename_i h
      obtain rfl := Std.LawfulEqOrd.eq_of_compare h
      by_cases hk : k' = k <;> simp [lookup, hk]
    · rename_i h
      have hne : k ≠ k₀ := by
        rintro rfl
        simp at h
      by_cases hk : k' = k
      · subst hk
        simp [lookup, hne, ih]
      · simp [lookup, hk, ih]

/-- A look-up after an insertion finds the inserted value or what was there before. -/
@[simp]
theorem get?_insert (d : Dict κ α) (k k' : κ) (a : α) :
    (d.insert k a).get? k' = if k' = k then some a else d.get? k' :=
  lookup_place k k' a d.entries

omit [Ord κ] [Std.LawfulEqOrd κ] in
/-- A look-up after an entry is forgotten finds the other entries. -/
@[simp]
theorem get?_erase (d : Dict κ α) (k k' : κ) :
    (d.erase k).get? k' = if k' = k then none else d.get? k' := by
  obtain ⟨entries⟩ := d
  simp only [erase, get?]
  induction entries with
  | nil => simp [lookup]
  | cons entry rest ih =>
    obtain ⟨k₀, a⟩ := entry
    by_cases hk : k₀ = k
    · by_cases hk' : k' = k <;> simp_all [lookup]
    · by_cases hk' : k' = k <;> simp_all [lookup, Ne.symm hk]

omit [Ord κ] [Std.LawfulEqOrd κ] in
@[simp]
theorem get?_empty (k : κ) : (empty : Dict κ α).get? k = none := rfl

end Lemmas

end Dict

end RowTyping
