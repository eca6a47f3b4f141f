/-!
# Lists in strictly increasing order

Finite sets of labels and of variables are kept as lists in strictly increasing order, so that equal
sets are equal lists. `Sorted.ofList` puts any list into this form and `Sorted.search` looks an
element up by repeated halving.
-/

namespace RowTyping.Sorted

variable {α : Type} [Ord α]

/-- Insert an element at its place; an element that is already there is not repeated. -/
def insert (a : α) : List α → List α
  | [] => [a]
  | b :: bs =>
    match compare a b with
    | .lt => a :: b :: bs
    | .eq => b :: bs
    | .gt => b :: insert a bs

/-- The elements of a list in strictly increasing order. -/
def ofList (as : List α) : List α :=
  as.foldr insert []

/-- Every element is smaller than all later ones. -/
def IsSorted (as : List α) : Prop :=
  as.Pairwise fun a b => compare a b = .lt

/-- Look for an element with at most `n` halvings. -/
def searchWithin (a : α) : Nat → List α → Bool
  | 0, _ => false
  | n + 1, as =>
    match as.drop (as.length / 2) with
    | [] => false
    | b :: larger =>
      match compare a b with
      | .lt => searchWithin a n (as.take (as.length / 2))
      | .eq => true
      | .gt => searchWithin a n larger

/-- Binary search: compare with the middle element and continue in one half. -/
def search (a : α) (as : List α) : Bool :=
  searchWithin a as.length as

end RowTyping.Sorted
