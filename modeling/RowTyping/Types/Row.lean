import RowTyping.Data.Sorted
import RowTyping.Types.Var

/-!
# Effect rows

A row lists the effects a computation may perform. A row without a tail is closed, and the closed
row without labels is pure. A tail stands for further effects that are not known yet.
-/

namespace RowTyping

/-- The effects of a computation: known labels and possibly a tail. -/
structure Row where
  /-- The known effects, in increasing order without repetitions. -/
  labels : List String := []
  /-- The variable for further effects, absent from a closed row. -/
  tail : Option EffectVar := none
deriving DecidableEq, Repr, Inhabited

namespace Row

/-- The closed row without effects. -/
def pure : Row := {}

/-- The closed row with the given labels. -/
def closed (labels : List String) : Row :=
  { labels := Sorted.ofList labels }

/-- The row with the given labels that `tail` may extend. -/
def extensible (labels : List String) (tail : EffectVar) : Row :=
  { labels := Sorted.ofList labels, tail := some tail }

/-- The row that is just an effect variable. -/
def ofVar (tail : EffectVar) : Row :=
  { tail := some tail }

/-- Whether the row has neither labels nor a tail. -/
def isPure (r : Row) : Bool :=
  r.labels.isEmpty && r.tail.isNone

/-- Whether the row has no tail. -/
def isClosed (r : Row) : Bool :=
  r.tail.isNone

/-- Whether a label is among the known effects. -/
def has (r : Row) (label : String) : Bool :=
  Sorted.search label r.labels

/-- The row without its tail. -/
def close (r : Row) : Row :=
  { r with tail := none }

/-- The labels of a row that another row does not list. -/
def labelsNotIn (r other : Row) : List String :=
  r.labels.filter fun label => !other.has label

/-- Replace the tail by the row it stands for, if `ρ` gives one. The labels of both are merged. -/
def subst (ρ : EffectVar → Option Row) (r : Row) : Row :=
  match r.tail with
  | none => r
  | some e =>
    match ρ e with
    | none => r
    | some rest => { labels := Sorted.ofList (r.labels ++ rest.labels), tail := rest.tail }

end Row

end RowTyping
