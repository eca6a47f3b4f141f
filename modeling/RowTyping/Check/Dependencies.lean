import RowTyping.Data.Sorted

/-!
# Dependency waves

Definitions that refer to each other form a component and are inferred together. Components are
ordered in waves: each component depends only on components of earlier waves, and comes as early as
it can.

A depth-first search with a stack of its own finds the components (`Search`). Vertices are numbered
in the order in which they are entered and stay on a stack until their component is complete. Each
has a low link, the smallest number on the stack that is known to be reached. A vertex whose low
link is its own number when it is left completes a component: the vertices on the stack down to it.
So a component comes after those it depends on, and one pass over the components finds the level of
each, which is the number of its wave.

A graph lists for each vertex, numbered from zero, the vertices it depends on.
-/

namespace RowTyping.Dependencies

/-- A graph by the dependencies of each vertex. -/
abbrev Graph := List (List Nat)

/-- The vertices a vertex depends on. -/
def depsOf (g : Graph) (v : Nat) : List Nat :=
  g.getD v []

/-! ## The search for components -/

/-- The state of the search. -/
structure Search where
  /-- The numbers of the vertices that have been entered. -/
  index : Array (Option Nat)
  /-- The low links of the vertices that have been entered. -/
  lowlink : Array Nat
  /-- Which vertices are on the stack. -/
  onStack : Array Bool
  /-- The vertices of components that are not complete, the last one entered first. -/
  stack : List Nat := []
  /-- The number of the next vertex. -/
  next : Nat := 0
  /-- The components that are complete, each in increasing order. -/
  components : List (List Nat) := []
  /-- The vertices that are visited, the last one first, each with the number of its next edge. -/
  work : List (Nat × Nat) := []

namespace Search

/-- The search before any vertex is entered. -/
def start (n : Nat) : Search where
  index := .replicate n none
  lowlink := .replicate n 0
  onStack := .replicate n false

/-- The number of a vertex, if it has been entered. -/
def indexOf? (s : Search) (v : Nat) : Option Nat :=
  s.index.getD v none

/-- The low link of a vertex. -/
def low (s : Search) (v : Nat) : Nat :=
  s.lowlink.getD v 0

/-- Enter a vertex and visit it next. -/
def enter (s : Search) (v : Nat) : Search :=
  { s with
    index := s.index.setIfInBounds v (some s.next)
    lowlink := s.lowlink.setIfInBounds v s.next
    onStack := s.onStack.setIfInBounds v true
    stack := v :: s.stack
    next := s.next + 1
    work := (v, 0) :: s.work }

/-- Lower the low link of a vertex to a number that it reaches. -/
def lower (s : Search) (v reached : Nat) : Search :=
  { s with lowlink := s.lowlink.setIfInBounds v (min (s.low v) reached) }

/-- Follow an edge of a vertex. Edges stay in the graph; any other is passed over. -/
def follow (s : Search) (v w : Nat) : Search :=
  if w < s.index.size then
    match s.indexOf? w with
    | none => s.enter w
    | some index => if s.onStack.getD w false then s.lower v index else s
  else s

/-- Split a stack below the given vertex. -/
def splitBelow (v : Nat) : List Nat → List Nat × List Nat
  | [] => ([], [])
  | w :: stack =>
    if w = v then ([w], stack)
    else
      let (above, below) := splitBelow v stack
      (w :: above, below)

/-- Take the vertices of a component off the stack, down to the given one. -/
def complete (s : Search) (v : Nat) : Search :=
  let split := splitBelow v s.stack
  { s with
    onStack := split.1.foldl (fun onStack w => onStack.setIfInBounds w false) s.onStack
    stack := split.2
    components := s.components ++ [Sorted.ofList split.1] }

/-- Complete a component if the low link of the given vertex is its own number. -/
def close (s : Search) (v : Nat) : Search :=
  if s.indexOf? v = some (s.low v) then s.complete v else s

/-- Leave a vertex that has no more edges. What it reaches is reached by the vertex visited
before. -/
def leave (s : Search) (v : Nat) : Search :=
  match s.work with
  | [] => s.close v
  | (parent, _) :: _ => (s.close v).lower parent (s.low v)

/-- Go on with a visited vertex: follow its next edge, or leave it if there is none. -/
def step (g : Graph) (s : Search) (v edge : Nat) (work : List (Nat × Nat)) : Search :=
  match (depsOf g v)[edge]? with
  | some w => { s with work := (v, edge + 1) :: work }.follow v w
  | none => { s with work }.leave v

/-- How many vertices have not been entered. -/
def unentered (s : Search) : Nat :=
  s.index.toList.count none

/-- How many edges have still to be followed and vertices to be left. -/
def pending (g : Graph) (s : Search) : Nat :=
  s.work.foldr (fun (v, edge) n => (depsOf g v).length - edge + 1 + n) 0

theorem unentered_enter_lt {s : Search} {v : Nat} (hv : v < s.index.size)
    (hnone : s.indexOf? v = none) : (s.enter v).unentered < s.unentered := by
  have hlt : v < s.index.toList.length := by simpa using hv
  have hget : s.index.toList[v] = none := by simpa [indexOf?, Array.getD, hv] using hnone
  have hpos : 0 < s.index.toList.count none :=
    List.count_pos_iff.mpr (hget ▸ List.getElem_mem hlt)
  have hcount := List.count_set (a := some s.next) (b := none) hlt
  rw [hget] at hcount
  simp only [unentered, enter, Array.toList_setIfInBounds, hcount]
  simp only [BEq.rfl, if_true, Option.some_beq_none, Bool.false_eq_true, if_false]
  omega

theorem index_close (s : Search) (v : Nat) : (s.close v).index = s.index := by
  unfold close
  split <;> rfl

theorem work_close (s : Search) (v : Nat) : (s.close v).work = s.work := by
  unfold close
  split <;> rfl

theorem index_leave (s : Search) (v : Nat) : (s.leave v).index = s.index := by
  unfold leave
  split
  · exact s.index_close v
  · exact s.index_close v

theorem work_leave (s : Search) (v : Nat) : (s.leave v).work = s.work := by
  unfold leave
  split
  · exact s.work_close v
  · exact s.work_close v

/-- How many edges have still to be followed and vertices to be left, by the work that is left. -/
theorem pending_cons (g : Graph) (s : Search) (v edge : Nat) (work : List (Nat × Nat)) :
    ({ s with work := (v, edge) :: work } : Search).pending g =
      (depsOf g v).length - edge + 1 + ({ s with work } : Search).pending g := by
  simp [pending]

/-- Every step enters a vertex, follows an edge or leaves a vertex. -/
theorem step_decreases (g : Graph) {s : Search} {v edge : Nat} {work : List (Nat × Nat)}
    (hwork : s.work = (v, edge) :: work) :
    Prod.Lex (· < ·) (· < ·) ((s.step g v edge work).unentered, (s.step g v edge work).pending g)
      (s.unentered, s.pending g) := by
  have hpending : s.pending g = ({ s with work := (v, edge) :: work } : Search).pending g := by
    rw [← hwork]
  rw [hpending, pending_cons]
  unfold step
  split
  · rename_i w hw
    obtain ⟨hlt, -⟩ := List.getElem?_eq_some_iff.mp hw
    have hfollowed : ({ s with work := (v, edge + 1) :: work } : Search).pending g <
        (depsOf g v).length - edge + 1 + ({ s with work } : Search).pending g := by
      rw [pending_cons]
      omega
    unfold follow
    split
    · split
      · exact .left _ _ (unentered_enter_lt ‹_› ‹_›)
      · split <;> exact .right _ hfollowed
    · exact .right _ hfollowed
  · have hentered : (({ s with work } : Search).leave v).unentered = s.unentered := by
      rw [unentered, index_leave]
      rfl
    have hleft : (({ s with work } : Search).leave v).pending g =
        ({ s with work } : Search).pending g := by
      rw [pending, work_leave]
      rfl
    rw [hentered, hleft]
    exact .right _ (by omega)

/-- Visit vertices until none is left. -/
def run (g : Graph) (s : Search) : Search :=
  match _ : s.work with
  | [] => s
  | (v, edge) :: work => run g (s.step g v edge work)
termination_by (s.unentered, s.pending g)
decreasing_by exact step_decreases g ‹_›

/-- Visit a vertex and what it reaches, unless it has been entered. -/
def visit (g : Graph) (s : Search) (v : Nat) : Search :=
  if s.indexOf? v = none then run g (s.enter v) else s

end Search

/-- The components, each in increasing order and after those it depends on. -/
def components (g : Graph) : List (List Nat) :=
  ((List.range g.length).foldl (Search.visit g) (.start g.length)).components

/-! ## Levels -/

/-- The number of the component of each of `n` vertices. -/
def componentOf (n : Nat) (components : List (List Nat)) : Array Nat :=
  components.zipIdx.foldl (fun ofVertex (component, c) =>
    component.foldl (fun ofVertex v => ofVertex.setIfInBounds v c) ofVertex) (.replicate n 0)

/-- The level of the component with number `c`: above the levels of the components it depends on. -/
def levelOf (g : Graph) (ofVertex levels : Array Nat) (component : List Nat) (c : Nat) : Nat :=
  let deps := (component.flatMap (depsOf g)).map (ofVertex.getD · 0)
  ((deps.filter (· ≠ c)).map fun d => levels.getD d 0 + 1).max?.getD 0

/-- The levels of the components. -/
def levels (g : Graph) (components : List (List Nat)) : Array Nat :=
  let ofVertex := componentOf g.length components
  components.zipIdx.foldl (fun levels (component, c) =>
    levels.setIfInBounds c (levelOf g ofVertex levels component c)) (.replicate components.length 0)

/-- Put a component at the end of a wave, with empty waves before it where there are none. -/
def place (waves : List (List (List Nat))) (level : Nat) (component : List Nat) :
    List (List (List Nat)) :=
  let waves := waves ++ List.replicate (level + 1 - waves.length) []
  waves.modify level (· ++ [component])

/-- Whether a component comes first in its wave, by the first members. -/
def startsFirst (c d : List Nat) : Bool :=
  c.headD 0 ≤ d.headD 0

/-- The components of a graph in waves. -/
def waves (g : Graph) : List (List (List Nat)) :=
  let components := components g
  let levels := levels g components
  let waves := components.zipIdx.foldl (fun waves (component, c) =>
    place waves (levels.getD c 0) component) []
  waves.map (·.mergeSort startsFirst)

end RowTyping.Dependencies
