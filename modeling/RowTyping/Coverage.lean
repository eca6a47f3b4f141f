import RowTyping.Registry.DataType
import RowTyping.Syntax.Expr

/-!
# Coverage of patterns

Which values do the arms of a choice leave out? The patterns form a matrix with a row for each arm
and a column for each value that is looked at. A column whose heads are all constructors of its type
is split by constructor; otherwise only the rows that start with a catch-all can match what is
missing. A split uses up a head in each row it keeps, and every other step uses up a column, so the
search ends also for recursive types.
-/

namespace RowTyping

namespace Pattern

/-- The name of the constructor a pattern starts with. Truth values, the unit value and tuples count
as constructors too. -/
def headName? : Pattern → Option String
  | .constructor _ name _ => some name
  | .tuple _ _ => some "(,)"
  | .lit _ (.bool true) => some "True"
  | .lit _ (.bool false) => some "False"
  | .lit _ .unit => some "()"
  | .lit _ (.int _) | .lit _ (.float _) | .lit _ (.string _) | .wildcard _ | .var _ _ => none

/-- The patterns for the fields of the head. -/
def subpatterns : Pattern → List Pattern
  | .constructor _ _ args => args
  | .tuple _ elems => elems
  | .lit _ _ | .wildcard _ | .var _ _ => []

mutual

/-- The number of heads in a pattern. -/
def headCount : Pattern → Nat
  | .constructor _ _ args => headCountAll args + 1
  | .tuple _ elems => headCountAll elems + 1
  | .lit _ (.bool _) | .lit _ .unit => 1
  | .lit _ (.int _) | .lit _ (.float _) | .lit _ (.string _) | .wildcard _ | .var _ _ => 0

/-- The number of heads in a list of patterns. -/
def headCountAll : List Pattern → Nat
  | [] => 0
  | p :: ps => p.headCount + headCountAll ps

end

theorem headCountAll_append (ps qs : List Pattern) :
    headCountAll (ps ++ qs) = headCountAll ps + headCountAll qs := by
  induction ps with
  | nil => simp [headCountAll]
  | cons p ps ih => simp only [List.cons_append, headCountAll, ih, Nat.add_assoc]

theorem headCountAll_replicate_wildcard (n : Nat) (span : Span) :
    headCountAll (List.replicate n (.wildcard span)) = 0 := by
  induction n with
  | zero => rfl
  | succ n ih => simp [List.replicate_succ, headCountAll, headCount, ih]

/-- A pattern with a head has one more than its subpatterns. -/
theorem headCount_of_headName {p : Pattern} {name : String} (h : p.headName? = some name) :
    p.headCount = headCountAll p.subpatterns + 1 := by
  unfold headName? at h
  split at h <;> simp_all [headCount, subpatterns, headCountAll]

end Pattern

namespace Coverage

/-- A constructor of a finite type with the types of its fields. -/
structure Case where
  /-- The name of the constructor. -/
  name : String
  /-- The types of its fields. -/
  fields : List Ty
deriving DecidableEq, Repr, Inhabited

/-- The constructors of a type, none if its values are not built by finitely many. -/
def casesOf (types : DataTypes) : Ty → List Case
  | .prim .bool => [⟨"True", []⟩, ⟨"False", []⟩]
  | .prim .unit => [⟨"()", []⟩]
  | .tuple elems => [⟨"(,)", elems⟩]
  | .named name args =>
    match types.get? name with
    | some d => d.constructors.map fun c => ⟨c.name, d.fieldsAt args c⟩
    | none => []
  | .prim .int | .prim .float | .prim .string | .var _ | .app _ _ | .fn _ _ _ => []

/-- A pattern for values that are left out. -/
inductive Witness where
  /-- Any value. -/
  | any
  /-- The values built by a constructor from values left out. -/
  | case (name : String) (args : List Witness)
deriving Repr, Inhabited

namespace Witness

/-- Put a written field after a constructor: in parentheses if it has parts and none yet. -/
def fieldText (text : String) : String :=
  if text.toList.contains ' ' && !text.toList.head?.any (· = '(') then s!" ({text})"
  else " " ++ text

/-- Write a constructor with its written fields. -/
def caseText (name : String) (args : List String) : String :=
  if name = "(,)" then "(" ++ ", ".intercalate args ++ ")"
  else name ++ String.join (args.map fieldText)

mutual

/-- Write a witness as a pattern. -/
def render : Witness → String
  | .any => "_"
  | .case name args => caseText name (renderAll args)

/-- Write a list of witnesses. -/
def renderAll : List Witness → List String
  | [] => []
  | w :: ws => w.render :: renderAll ws

end

end Witness

/-- A row of patterns, one for each column. -/
abbrev PatternRow := List Pattern

/-- The row as seen by a value built by a constructor, with the fields in place of the value; none
if it does not match. -/
def specializeRow (c : Case) : PatternRow → Option PatternRow
  | [] => none
  | p :: ps =>
    if p.isCatchAll then some (List.replicate c.fields.length (.wildcard .synthetic) ++ ps)
    else if p.headName? = some c.name then some (p.subpatterns ++ ps)
    else none

/-- The rows that can match a value built by a constructor. -/
def specialize (c : Case) (rows : List PatternRow) : List PatternRow :=
  rows.filterMap (specializeRow c)

/-- The rest of a row that starts with a catch-all. -/
def defaultRow : PatternRow → Option PatternRow
  | [] => none
  | p :: ps => if p.isCatchAll then some ps else none

/-- The rows that match whatever the first column holds. -/
def defaults (rows : List PatternRow) : List PatternRow :=
  rows.filterMap defaultRow

/-- The heads of the first column. -/
def heads (rows : List PatternRow) : List String :=
  rows.filterMap fun row => row.head?.bind Pattern.headName?

/-- The number of heads in a matrix. -/
def headCount (rows : List PatternRow) : Nat :=
  Pattern.headCountAll rows.flatten

/-- The constructors of the first column's type that no row starts with, any value if nothing is
known about them. -/
def missingHeads (cases : List Case) (heads : List String) : List Witness :=
  if heads.isEmpty || cases.isEmpty then [.any]
  else (cases.filter (!heads.contains ·.name)).map fun c =>
    .case c.name (List.replicate c.fields.length .any)

/-- Whether the heads of a column are all constructors of its type. -/
def isComplete (cases : List Case) (heads : List String) : Bool :=
  !cases.isEmpty && cases.all (heads.contains ·.name)

/-- Put the witnesses for a constructor's fields together. -/
def gather (c : Case) (ws : List Witness) : List Witness :=
  .case c.name (ws.take c.fields.length) :: ws.drop c.fields.length

theorem headCountAll_specializeRow {c : Case} {row row' : PatternRow}
    (h : specializeRow c row = some row') :
    Pattern.headCountAll row' ≤ Pattern.headCountAll row := by
  cases row with
  | nil => simp [specializeRow] at h
  | cons p ps =>
    simp only [specializeRow] at h
    split at h
    · cases h
      simp only [Pattern.headCountAll_append, Pattern.headCountAll_replicate_wildcard,
        Pattern.headCountAll]
      omega
    · split at h
      · rename_i hp
        cases h
        have := Pattern.headCount_of_headName hp
        simp only [Pattern.headCountAll_append, Pattern.headCountAll]
        omega
      · cases h

theorem headCount_specialize_le (c : Case) (rows : List PatternRow) :
    headCount (specialize c rows) ≤ headCount rows := by
  unfold specialize
  induction rows with
  | nil => simp [headCount]
  | cons row rows ih =>
    simp only [headCount] at ih ⊢
    cases h : specializeRow c row with
    | none => simp only [List.filterMap_cons, h, List.flatten_cons,
        Pattern.headCountAll_append]; omega
    | some row' =>
      have := headCountAll_specializeRow h
      simp only [List.filterMap_cons, h, List.flatten_cons, Pattern.headCountAll_append]
      omega

/-- Splitting a column by a constructor that heads a row uses up a head. -/
theorem headCount_specialize_lt {c : Case} {rows : List PatternRow} (h : c.name ∈ heads rows) :
    headCount (specialize c rows) < headCount rows := by
  unfold specialize
  induction rows with
  | nil => simp [heads] at h
  | cons row rows ih =>
    have hle := headCount_specialize_le c rows
    simp only [headCount, specialize] at ih hle ⊢
    by_cases hrow : row.head?.bind Pattern.headName? = some c.name
    · cases row with
      | nil => simp at hrow
      | cons p ps =>
        have hp : p.headName? = some c.name := by simpa using hrow
        have hcount := Pattern.headCount_of_headName hp
        have hcatch : p.isCatchAll = false := by
          cases p <;> simp_all [Pattern.headName?, Pattern.isCatchAll]
        simp only [List.filterMap_cons, specializeRow, hcatch, hp, List.flatten_cons,
          Pattern.headCountAll_append, Pattern.headCountAll]
        simp only [Bool.false_eq_true, ↓reduceIte, List.flatten_cons,
          Pattern.headCountAll_append]
        omega
    · have hmem : c.name ∈ heads rows := by
        simp only [heads, List.mem_filterMap, List.mem_cons] at h ⊢
        obtain ⟨r, rfl | hr, hname⟩ := h
        · exact absurd hname hrow
        · exact ⟨r, hr, hname⟩
      have := ih hmem
      cases hs : specializeRow c row with
      | none => simp only [List.filterMap_cons, hs, List.flatten_cons,
        Pattern.headCountAll_append]; omega
      | some row' =>
        have := headCountAll_specializeRow hs
        simp only [List.filterMap_cons, hs, List.flatten_cons, Pattern.headCountAll_append]
        omega

theorem headCount_default_le (rows : List PatternRow) :
    headCount (defaults rows) ≤ headCount rows := by
  unfold defaults
  induction rows with
  | nil => simp [headCount]
  | cons row rows ih =>
    simp only [headCount] at ih ⊢
    cases row with
    | nil => simp only [List.filterMap_cons, defaultRow, List.flatten_cons,
        Pattern.headCountAll_append]; omega
    | cons p ps =>
      by_cases hp : p.isCatchAll
      · simp only [List.filterMap_cons, defaultRow, hp, ↓reduceIte, List.flatten_cons,
          Pattern.headCountAll_append, Pattern.headCountAll]
        omega
      · simp only [List.filterMap_cons, defaultRow, hp, Bool.false_eq_true, ↓reduceIte,
          List.flatten_cons, Pattern.headCountAll_append]
        omega

theorem mem_heads_of_isComplete {cases : List Case} {hs : List String} {c : Case}
    (h : isComplete cases hs = true) (hc : c ∈ cases) : c.name ∈ hs := by
  simp only [isComplete, Bool.and_eq_true, List.all_eq_true] at h
  simpa using h.2 c hc

/-- Patterns for the rows of values that no row of the matrix matches, one pattern for each
column. -/
def missing (types : DataTypes) (rows : List PatternRow) (columns : List Ty) :
    List (List Witness) :=
  match columns with
  | [] => if rows.isEmpty then [[]] else []
  | t :: rest =>
    if _ : isComplete (casesOf types t) (heads rows) then
      (casesOf types t).attach.flatMap fun ⟨c, _⟩ =>
        (missing types (specialize c rows) (c.fields ++ rest)).map (gather c)
    else
      let others := missing types (defaults rows) rest
      (missingHeads (casesOf types t) (heads rows)).flatMap fun w => others.map (w :: ·)
termination_by (headCount rows, columns.length)
decreasing_by
  · exact Prod.Lex.left _ _ (headCount_specialize_lt (mem_heads_of_isComplete ‹_› ‹_›))
  · exact Prod.Lex.right' _ (headCount_default_le rows) (by simp)

/-- Patterns for the values of a type that none of the given patterns matches. -/
def missingPatterns (types : DataTypes) (t : Ty) (patterns : List Pattern) : List Witness :=
  (missing types (patterns.map ([·])) [t]).filterMap (·.head?)

end Coverage

end RowTyping
