import RowTyping.Syntax.Span
import RowTyping.Types.Scheme

/-!
# Signatures

The printable form of a scheme. Quantifiers are listed with the variables of requirements first,
then effect variables, then the others. A declared name is kept if no other variable claims it; all
other variables take the canonical names that are left, in order.
-/

namespace RowTyping

/-- The printable type of a name. -/
structure Signature where
  /-- The name. -/
  name : String
  /-- The quantified variables in the order they are written. -/
  quantifiers : List Var
  /-- The requirements. -/
  givens : List Given
  /-- The type. -/
  type : Ty
  /-- The names of the variables. -/
  names : VarNames
  /-- Where the name is defined. -/
  span : Span
deriving DecidableEq, Repr, Inhabited

namespace Scheme

/-- The quantified variables in increasing order, type variables first. -/
def quantified (σ : Scheme) : List Var :=
  (Sorted.ofList σ.typeVars).map .type ++ (Sorted.ofList σ.effectVars).map .effect

/-- The quantified variables in the order they are written. -/
def quantifiers (σ : Scheme) : List Var :=
  let required := σ.givens.flatMap (·.type.vars)
  let others := σ.type.vars ++ σ.quantified
  distinct ((required ++ others.filter Var.isEffect ++ others).filter (σ.quantified.contains ·))

/-- The variables that need a name, in the order names are given. -/
def namedVars (σ : Scheme) : List Var :=
  distinct (σ.type.vars ++ σ.quantifiers)

end Scheme

namespace Signature

/-- The declared name of a variable, if no other of the variables has it too. -/
def keptName? (order : List Var) (hints : VarNames) (x : Var) : Option String :=
  (hints.get? x).filter fun name => (order.filterMap hints.get?).count name = 1

/-- The names that are used and do not come before an index among the canonical names. -/
def usedFrom (used : List String) (next : Nat) : List String :=
  used.filter fun name => name ∉ (List.range next).map letterName

theorem usedFrom_succ_lt {used : List String} {next : Nat} (h : letterName next ∈ used) :
    (usedFrom used (next + 1)).length < (usedFrom used next).length := by
  have hsucc : usedFrom used (next + 1) = (usedFrom used next).filter fun name => name ≠
      letterName next := by
    simp only [usedFrom, List.range_succ, List.map_append, List.map_singleton, List.mem_append,
      List.mem_singleton, List.filter_filter]
    refine List.filter_congr fun name _ => ?_
    simp [not_or, and_comm]
  rw [hsucc, List.length_filter_lt_length_iff_exists]
  refine ⟨letterName next, List.mem_filter.mpr ⟨h, decide_eq_true fun hmem => ?_⟩, by simp⟩
  obtain ⟨k, hk, heq⟩ := List.mem_map.mp hmem
  exact Nat.lt_irrefl _ (letterName_injective heq ▸ List.mem_range.mp hk)

/-- The first canonical name from an index on that is not used. -/
def nextUnused (used : List String) (next : Nat) : Nat :=
  if letterName next ∈ used then nextUnused used (next + 1) else next
termination_by (usedFrom used next).length
decreasing_by exact usedFrom_succ_lt ‹_›

/-- Name variables in order: by their kept name, or by the next canonical name that is not used. -/
def assignNames (kept : Var → Option String) (used : List String) :
    List Var → Nat → VarNames → VarNames
  | [], _, names => names
  | x :: xs, next, names =>
    match kept x with
    | some name => assignNames kept used xs next (names.insert x name)
    | none =>
      let index := nextUnused used next
      assignNames kept used xs (index + 1) (names.insert x (letterName index))

/-- The names of variables. Names that are kept are not used otherwise. -/
def chooseNames (order : List Var) (hints : VarNames) : VarNames :=
  let kept := keptName? order hints
  assignNames kept (order.filterMap kept) order 0 {}

/-- The printable form of a scheme. -/
def ofScheme (name : String) (σ : Scheme) (span : Span) : Signature where
  name
  quantifiers := σ.quantifiers
  givens := σ.givens
  type := σ.type
  names := chooseNames σ.namedVars σ.names
  span

/-- Write a signature, with the requirements on a line of their own. -/
def render (s : Signature) : String :=
  let type := s.type.render s.names
  let quantified :=
    if s.quantifiers.isEmpty then type
    else
      let vars := " ".intercalate (s.quantifiers.map s.names.nameOf)
      s!"forall {vars}. ({type})"
  let givens :=
    if s.givens.isEmpty then ""
    else "\n  given " ++ ", ".intercalate (s.givens.map (·.render s.names))
  s!"{s.name} : {quantified}{givens}"

end Signature

end RowTyping
