import Mathlib.Data.List.Nodup
import Mathlib.Logic.Relation
import RowTyping.Check.Dependencies
import RowTyping.Proofs.SortedList

/-!
# The search finds the strongly connected components

The vertices that are visited form the path of the search (`Search.path`). They are all on the
stack, and the stack has two more properties that carry the proof (`Search.Valid`): a visited vertex
reaches everything above it, and everything on the stack reaches a visited vertex at or below it.
Low links are numbers on the stack that are reached, and no edge that has been followed leads to a
smaller one from what lies between a visited vertex and the next one.

So if a vertex is left whose low link is its own number, the edges of what lies above it on the
stack stay there or lead to complete components (`Search.Valid.edge_above`). Then all of it reaches
the vertex and is one component, which depends only on itself and on components found before
(`Emitted`).
-/

namespace RowTyping.Dependencies

open List

/-- The first vertex depends on the second, which is a vertex of the graph. -/
def Edge (g : Graph) (v w : Nat) : Prop :=
  w ∈ depsOf g v ∧ w < g.length

/-- The second vertex can be reached from the first. -/
abbrev Reaches (g : Graph) : Nat → Nat → Prop :=
  Relation.ReflTransGen (Edge g)

/-- Components in the order in which they are found: each is connected and in increasing order, and
its edges lead to itself or to components before it. -/
structure Emitted (g : Graph) (cs : List (List Nat)) : Prop where
  closed : ∀ (i : Nat) (c : List Nat), cs[i]? = some c → ∀ v ∈ c, ∀ w, Edge g v w →
    ∃ j ≤ i, ∃ d, cs[j]? = some d ∧ w ∈ d
  connected : ∀ c ∈ cs, ∀ v ∈ c, ∀ w ∈ c, Reaches g v w
  ascending : ∀ c ∈ cs, c.Pairwise (· < ·)
  nonempty : ∀ c ∈ cs, c ≠ []

namespace Emitted

variable {g : Graph} {cs : List (List Nat)} {v w : Nat}

theorem nil (g : Graph) : Emitted g [] := by
  constructor <;> simp

/-- What has been found contains what it depends on. -/
theorem mem_flatten_of_edge (h : Emitted g cs) (hv : v ∈ cs.flatten) (hedge : Edge g v w) :
    w ∈ cs.flatten := by
  obtain ⟨c, hc, hv⟩ := mem_flatten.mp hv
  obtain ⟨i, hi⟩ := getElem?_of_mem hc
  obtain ⟨j, -, d, hd, hw⟩ := h.closed i c hi v hv w hedge
  exact mem_flatten.mpr ⟨d, mem_of_getElem? hd, hw⟩

/-- One more component, whose edges lead to itself or to what has been found. -/
theorem concat (h : Emitted g cs) {c : List Nat} (hne : c ≠ [])
    (hedge : ∀ v ∈ c, ∀ w, Edge g v w → w ∈ c ∨ w ∈ cs.flatten)
    (hconnected : ∀ v ∈ c, ∀ w ∈ c, Reaches g v w) : Emitted g (cs ++ [Sorted.ofList c]) where
  closed i d hd v hv w hw := by
    rcases Nat.lt_or_ge i cs.length with hi | hi
    · rw [List.getElem?_append_left hi] at hd
      obtain ⟨j, hj, d', hd', hw⟩ := h.closed i d hd v hv w hw
      exact ⟨j, hj, d', by rwa [List.getElem?_append_left (by omega)], hw⟩
    · obtain ⟨rfl, rfl⟩ : i = cs.length ∧ d = Sorted.ofList c := by
        rw [getElem?_append_right hi] at hd
        obtain ⟨hlt, rfl⟩ := List.getElem?_eq_some_iff.mp hd
        have : i = cs.length := by simp at hlt; omega
        simp [this]
      rcases hedge v (Sorted.mem_ofList.mp hv) w hw with hin | hin
      · exact ⟨_, Nat.le_refl _, _, getElem?_concat_length, Sorted.mem_ofList.mpr hin⟩
      · obtain ⟨d, hd, hwd⟩ := mem_flatten.mp hin
        obtain ⟨j, hj⟩ := getElem?_of_mem hd
        have hlt := (List.getElem?_eq_some_iff.mp hj).1
        exact ⟨j, by omega, d, by rwa [List.getElem?_append_left hlt], hwd⟩
  connected d hd v hv w hw := by
    rcases mem_append.mp hd with hd | hd
    · exact h.connected d hd v hv w hw
    · obtain rfl := mem_singleton.mp hd
      exact hconnected v (Sorted.mem_ofList.mp hv) w (Sorted.mem_ofList.mp hw)
  ascending d hd := by
    rcases mem_append.mp hd with hd | hd
    · exact h.ascending d hd
    · obtain rfl := mem_singleton.mp hd
      exact (Sorted.isSorted_ofList c).imp Nat.compare_eq_lt.mp
  nonempty d hd := by
    rcases mem_append.mp hd with hd | hd
    · exact h.nonempty d hd
    · obtain rfl := mem_singleton.mp hd
      obtain ⟨v, hv⟩ := exists_mem_of_ne_nil c hne
      exact ne_nil_of_mem (Sorted.mem_ofList.mpr hv)

end Emitted

/-- A look-up after an array is changed at one place. -/
theorem getD_setIfInBounds {α : Type} (xs : Array α) (i j : Nat) (x d : α) :
    (xs.setIfInBounds i x).getD j d = if j = i ∧ i < xs.size then x else xs.getD j d := by
  simp only [Array.getD_eq_getD_getElem?, Array.getElem?_setIfInBounds]
  grind

theorem size_foldl_setIfInBounds {α : Type} (vs : List Nat) (x : α) (xs : Array α) :
    (vs.foldl (fun xs v => xs.setIfInBounds v x) xs).size = xs.size := by
  induction vs generalizing xs with
  | nil => rfl
  | cons v vs ih => rw [foldl_cons, ih, Array.size_setIfInBounds]

/-- A look-up after an array is changed at several places. -/
theorem getD_foldl_setIfInBounds {α : Type} (vs : List Nat) (x : α) (xs : Array α) (u : Nat)
    (d : α) :
    (vs.foldl (fun xs v => xs.setIfInBounds v x) xs).getD u d =
      if u ∈ vs ∧ u < xs.size then x else xs.getD u d := by
  induction vs generalizing xs with
  | nil => simp
  | cons v vs ih =>
    rw [foldl_cons, ih, getD_setIfInBounds, Array.size_setIfInBounds]
    grind

namespace Search

variable {g : Graph} {s : Search} {u v w edge k : Nat} {work after : List (Nat × Nat)}

/-! ## What a state says -/

/-- The number of a vertex that has been entered. -/
def num (s : Search) (v : Nat) : Nat :=
  (s.indexOf? v).getD 0

/-- The vertices that are visited, the last one first. -/
def path (s : Search) : List Nat :=
  s.work.map Prod.fst

/-- The edge has been followed: it is none of those that a visited vertex has still to follow. -/
def Followed (g : Graph) (s : Search) (v w : Nat) : Prop :=
  Edge g v w ∧ ∀ edge, (v, edge) ∈ s.work → w ∈ (depsOf g v).take edge

/-- The first vertex is the last visited one at or below the second on the stack. -/
def Under (s : Search) (v u : Nat) : Prop :=
  s.num v ≤ s.num u ∧ ∀ x ∈ s.path, s.num x ≤ s.num u → s.num x ≤ s.num v

theorem low_lower (hv : v < s.lowlink.size) (k x : Nat) :
    (s.lower v k).low x = if x = v then min (s.low v) k else s.low x := by
  simp only [low, lower, getD_setIfInBounds, hv, and_true]

/-- What holds of the search at every step. -/
structure Valid (g : Graph) (s : Search) : Prop where
  index_size : s.index.size = g.length
  lowlink_size : s.lowlink.size = g.length
  onStack_size : s.onStack.size = g.length
  onStack : ∀ v, s.onStack.getD v false = true ↔ v ∈ s.stack
  /-- The vertices that have been entered are on the stack or in a complete component. -/
  entered : ∀ v, s.indexOf? v ≠ none ↔ v ∈ s.stack ∨ v ∈ s.components.flatten
  nodup : (s.stack ++ s.components.flatten).Nodup
  earlier : ∀ v ∈ s.stack, s.num v < s.next
  descending : s.stack.Pairwise fun v w => s.num w < s.num v
  path : s.path.Sublist s.stack
  /-- A visited vertex reaches what is above it on the stack. -/
  down : ∀ v ∈ s.path, ∀ w ∈ s.stack, s.num v ≤ s.num w → Reaches g v w
  /-- What is on the stack reaches a visited vertex at or below it. -/
  up : ∀ v ∈ s.stack, ∃ w ∈ s.path, s.num w ≤ s.num v ∧ Reaches g v w
  followed : ∀ v ∈ s.stack, ∀ w, s.Followed g v w → s.indexOf? w ≠ none
  low_le : ∀ v ∈ s.path, s.low v ≤ s.num v
  /-- The low link of a visited vertex is a number on the stack that it reaches. -/
  low_reached : ∀ v ∈ s.path, ∃ w ∈ s.stack, s.num w = s.low v ∧ Reaches g v w
  /-- No edge followed from between a visited vertex and the next one leads below its low link. -/
  low_least : ∀ v ∈ s.path, ∀ u ∈ s.stack, s.Under v u → ∀ w ∈ s.stack, s.Followed g u w →
    s.low v ≤ s.num w
  emitted : Emitted g s.components

namespace Valid

section

variable (h : Valid g s)
include h

theorem mem_stack (hv : v ∈ s.path) : v ∈ s.stack :=
  h.path.subset hv

theorem lt_length_of_entered (hv : s.indexOf? v ≠ none) : v < g.length := by
  rw [← h.index_size]
  by_contra hlt
  simp [indexOf?, Array.getD, hlt] at hv

theorem lt_length (hv : v ∈ s.stack) : v < g.length :=
  h.lt_length_of_entered ((h.entered v).mpr (.inl hv))

theorem indexOf?_eq (hv : v ∈ s.stack) : s.indexOf? v = some (s.num v) := by
  obtain ⟨i, hi⟩ := Option.ne_none_iff_exists'.mp ((h.entered v).mpr (.inl hv))
  rw [num, hi, Option.getD_some]

theorem num_inj (hv : v ∈ s.stack) (hw : w ∈ s.stack) (hnum : s.num v = s.num w) :
    v = w := by
  have hnodup : (s.stack.map s.num).Nodup :=
    pairwise_map.mpr (h.descending.imp fun hlt => (Nat.ne_of_lt hlt).symm)
  exact inj_on_of_nodup_map hnodup hv hw hnum

/-- The numbers of visited vertices are below that of the last one. -/
theorem num_lt (hwork : s.work = (v, edge) :: work) (hu : u ∈ work.map Prod.fst) :
    s.num u < s.num v := by
  have hpath := h.descending.sublist h.path
  rw [Search.path, hwork, map_cons, pairwise_cons] at hpath
  exact hpath.1 u hu

theorem num_le (hwork : s.work = (v, edge) :: work) (hu : u ∈ s.path) :
    s.num u ≤ s.num v := by
  rw [Search.path, hwork] at hu
  rcases mem_cons.mp hu with rfl | hu
  · exact Nat.le_refl _
  · exact Nat.le_of_lt (h.num_lt hwork hu)

/-! ## Steps -/

/-- Enter a vertex that the visited ones reach. -/
theorem enter (hw : w < g.length) (hnone : s.indexOf? w = none)
    (hreach : ∀ v ∈ s.path, Reaches g v w) : Valid g (s.enter w) := by
  have hout : w ∉ s.stack ++ s.components.flatten := fun hmem =>
    (h.entered w).mpr (mem_append.mp hmem) hnone
  have hne {v : Nat} (hv : v ∈ s.stack) : v ≠ w := fun heq =>
    hout (mem_append_left _ (heq ▸ hv))
  have hindex (v : Nat) : (s.enter w).indexOf? v = if v = w then some s.next else s.indexOf? v := by
    simp only [indexOf?, Search.enter, getD_setIfInBounds, h.index_size, hw, and_true]
  have hlow (v : Nat) : (s.enter w).low v = if v = w then s.next else s.low v := by
    simp only [low, Search.enter, getD_setIfInBounds, h.lowlink_size, hw, and_true]
  have hself : (s.enter w).num w = s.next := by simp [num, hindex]
  have hnum {v : Nat} (hv : v ∈ s.stack) : (s.enter w).num v = s.num v := by
    simp [num, hindex, hne hv]
  have hfollowed {v x : Nat} (hv : v ∈ (s.enter w).stack) (hx : (s.enter w).Followed g v x) :
      v ∈ s.stack ∧ s.Followed g v x := by
    rcases mem_cons.mp hv with rfl | hv
    · -- none of the edges of the vertex has been followed
      have hnone := hx.2 0 (.head _)
      rw [take_zero] at hnone
      cases hnone
    · exact ⟨hv, hx.1, fun edge hedge => hx.2 edge (.tail _ hedge)⟩
  exact
    { index_size := by simp [Search.enter, h.index_size]
      lowlink_size := by simp [Search.enter, h.lowlink_size]
      onStack_size := by simp [Search.enter, h.onStack_size]
      onStack := fun v => by
        simp only [Search.enter, getD_setIfInBounds, h.onStack_size, hw, and_true, mem_cons]
        rw [← h.onStack]
        split <;> simp_all
      entered := fun v => by
        rw [hindex]
        split
        · simp_all [Search.enter]
        · simp_all [Search.enter, h.entered v]
      nodup := nodup_cons.mpr ⟨hout, h.nodup⟩
      earlier := forall_mem_cons.mpr ⟨hself ▸ Nat.lt_succ_self _, fun v hv =>
        hnum hv ▸ Nat.lt_succ_of_lt (h.earlier v hv)⟩
      descending := by
        refine pairwise_cons.mpr ⟨fun v hv => ?_, h.descending.imp_of_mem fun hv hx hlt => ?_⟩
        · rw [hself, hnum hv]
          exact h.earlier v hv
        · rwa [hnum hv, hnum hx]
      path := h.path.cons_cons w
      down := forall_mem_cons.mpr ⟨forall_mem_cons.mpr ⟨fun _ => .refl, fun x hx hle => by
          rw [hself, hnum hx] at hle
          exact absurd (h.earlier x hx) (Nat.not_lt.mpr hle)⟩,
        fun v hv => forall_mem_cons.mpr ⟨fun _ => hreach v hv, fun x hx hle => by
          rw [hnum (h.mem_stack hv), hnum hx] at hle
          exact h.down v hv x hx hle⟩⟩
      up := forall_mem_cons.mpr ⟨⟨w, .head _, Nat.le_refl _, .refl⟩, fun v hv => by
        obtain ⟨x, hx, hle, hback⟩ := h.up v hv
        refine ⟨x, .tail _ hx, ?_, hback⟩
        rwa [hnum hv, hnum (h.mem_stack hx)]⟩
      followed := fun v hv x hx => by
        obtain ⟨hv, hx⟩ := hfollowed hv hx
        have := h.followed v hv x hx
        rw [hindex]
        split <;> simp_all
      low_le := forall_mem_cons.mpr ⟨by simp [hself, hlow], fun v hv => by
        rw [hnum (h.mem_stack hv), hlow, if_neg (hne (h.mem_stack hv))]
        exact h.low_le v hv⟩
      low_reached := forall_mem_cons.mpr
        ⟨⟨w, .head _, by rw [hself, hlow, if_pos rfl], .refl⟩, fun v hv => by
          obtain ⟨x, hx, heq, hreach⟩ := h.low_reached v hv
          refine ⟨x, .tail _ hx, ?_, hreach⟩
          rw [hnum hx, hlow, if_neg (hne (h.mem_stack hv)), heq]⟩
      low_least := forall_mem_cons.mpr ⟨fun u hu hunder x hx hedge => by
          obtain ⟨hu, -⟩ := hfollowed hu hedge
          have hle := hunder.1
          rw [hself, hnum hu] at hle
          exact absurd (h.earlier u hu) (Nat.not_lt.mpr hle), fun v hv u hu hunder x hx hedge => by
          obtain ⟨hu, hedge⟩ := hfollowed hu hedge
          have hstack := h.mem_stack hv
          have hunder' : s.Under v u := by
            refine ⟨?_, fun y hy => ?_⟩
            · rw [← hnum hstack, ← hnum hu]
              exact hunder.1
            · rw [← hnum (h.mem_stack hy), ← hnum hu, ← hnum hstack]
              exact hunder.2 y (.tail _ hy)
          rw [hlow, if_neg (hne hstack)]
          rcases mem_cons.mp hx with heq | hx
          · rw [heq, hself]
            exact Nat.le_trans (h.low_le v hv) (Nat.le_of_lt (h.earlier v hstack))
          · rw [hnum hx]
            exact h.low_least v hv u hu hunder' x hx hedge⟩
      emitted := h.emitted }

/-- Lower the low link of a visited vertex to a number on the stack that it reaches. -/
theorem lower (hv : v ∈ s.path) (hk : ∃ w ∈ s.stack, s.num w = k ∧ Reaches g v w) :
    Valid g (s.lower v k) := by
  have hlow := low_lower (h.lowlink_size ▸ h.lt_length (h.mem_stack hv)) k
  have hle (x : Nat) : (s.lower v k).low x ≤ s.low x := by
    rw [hlow]
    split
    · subst x
      exact Nat.min_le_left _ _
    · exact Nat.le_refl _
  exact
    { __ := h
      lowlink_size := by simp [Search.lower, h.lowlink_size]
      low_le := fun x hx => Nat.le_trans (hle x) (h.low_le x hx)
      low_reached := fun x hx => by
        rw [hlow]
        split
        · subst x
          rcases Nat.le_total (s.low v) k with hmin | hmin
          · rw [Nat.min_eq_left hmin]
            exact h.low_reached v hx
          · rw [Nat.min_eq_right hmin]
            exact hk
        · exact h.low_reached x hx
      low_least := fun x hx u hu hunder w hw hedge =>
        Nat.le_trans (hle x) (h.low_least x hx u hu hunder w hw hedge) }

/-- Go on to the next edge of a visited vertex, if what the edge leads to has been entered and is
not numbered below the low link. -/
theorem advance (before : List (Nat × Nat))
    (hwork : s.work = before ++ (v, edge) :: after)
    (hedge : (depsOf g v)[edge]? = some w) (hentered : w < g.length → s.indexOf? w ≠ none)
    (hlow : w ∈ s.stack → s.low v ≤ s.num w) :
    Valid g { s with work := before ++ (v, edge + 1) :: after } := by
  have hpath : ({ s with work := before ++ (v, edge + 1) :: after } : Search).path = s.path := by
    simp [Search.path, hwork]
  have hv : v ∈ s.path := by simp [Search.path, hwork]
  have hfollowed {u x : Nat}
      (hx : ({ s with work := before ++ (v, edge + 1) :: after } : Search).Followed g u x) :
      s.Followed g u x ∨ u = v ∧ x = w := by
    by_cases hnew : u = v ∧ x = w
    · exact .inr hnew
    · refine .inl ⟨hx.1, fun e he => ?_⟩
      rw [hwork] at he
      rcases mem_append.mp he with he | he
      · exact hx.2 e (mem_append_left _ he)
      · rcases mem_cons.mp he with he | he
        · obtain ⟨rfl, rfl⟩ := Prod.mk.inj he
          have htake := hx.2 (e + 1) (mem_append_right _ (.head _))
          rw [take_add_one, hedge, mem_append] at htake
          refine htake.resolve_right fun hxw => hnew ⟨rfl, ?_⟩
          simpa using hxw
        · exact hx.2 e (mem_append_right _ (.tail _ he))
  exact
    { __ := h
      path := hpath ▸ h.path
      down := hpath ▸ h.down
      up := hpath ▸ h.up
      followed := fun u hu x hx => by
        rcases hfollowed hx with hx | ⟨rfl, rfl⟩
        · exact h.followed u hu x hx
        · exact hentered hx.1.2
      low_le := hpath ▸ h.low_le
      low_reached := hpath ▸ h.low_reached
      low_least := fun y hy u hu hunder x hx hedge => by
        rw [hpath] at hy
        have hunder' : s.Under y u := ⟨hunder.1, fun z hz => hunder.2 z (hpath ▸ hz)⟩
        rcases hfollowed hedge with hedge | ⟨rfl, rfl⟩
        · exact h.low_least y hy u hu hunder' x hx hedge
        · -- the vertex is visited itself, so it is the last visited one at or below it
          obtain rfl : y = u := h.num_inj (h.mem_stack hy) (h.mem_stack hv)
            (Nat.le_antisymm hunder'.1 (hunder'.2 u hv (Nat.le_refl _)))
          exact hlow hx }

end

/-- The edges of the last visited vertex have been followed when none is left. -/
theorem followed_of_none (hwork : s.work = (v, edge) :: work) (hdone : (depsOf g v)[edge]? = none)
    (h : Valid g s) (hle : s.num v ≤ s.num u) (hedge : Edge g u w) : s.Followed g u w := by
  refine ⟨hedge, fun e he => ?_⟩
  rw [hwork] at he
  rcases mem_cons.mp he with heq | he
  · obtain ⟨rfl, rfl⟩ := Prod.mk.inj heq
    rw [take_of_length_le (getElem?_eq_none_iff.mp hdone)]
    exact hedge.1
  · -- other visited vertices are below the last one
    have hlt := h.num_lt hwork (mem_map_of_mem he)
    exact absurd hle (Nat.not_le.mpr hlt)

theorem followed_of_cons {e : Nat} (hwork : s.work = (v, e) :: work)
    (hdone : (depsOf g v)[e]? = none)
    (hedge : ({ s with work } : Search).Followed g u w) : s.Followed g u w := by
  refine ⟨hedge.1, fun edge he => ?_⟩
  rw [hwork] at he
  rcases mem_cons.mp he with heq | he
  · obtain ⟨rfl, rfl⟩ := Prod.mk.inj heq
    rw [take_of_length_le (getElem?_eq_none_iff.mp hdone)]
    exact hedge.1.1
  · exact hedge.2 edge he

/-- The last visited vertex is the one under everything above it. -/
theorem under_last (h : Valid g s) (hwork : s.work = (v, edge) :: work) (hle : s.num v ≤ s.num u) :
    s.Under v u :=
  ⟨hle, fun _ hx _ => h.num_le hwork hx⟩

/-- Leave a vertex that reaches below itself on the stack. The vertex visited before it, which now
is the last visited one at or below it, has a low link at least as low. -/
theorem pop (h : Valid g s) (hwork : s.work = (v, edge) :: work)
    (hdone : (depsOf g v)[edge]? = none) (hlt : s.low v < s.num v)
    (hparent : ∀ u ∈ work.map Prod.fst, (∀ x ∈ work.map Prod.fst, s.num x ≤ s.num u) →
      s.low u ≤ s.low v) : Valid g { s with work } := by
  have hpath : s.path = v :: work.map Prod.fst := by rw [Search.path, hwork, map_cons]
  have htail {x : Nat} (hx : x ∈ work.map Prod.fst) : x ∈ s.path := hpath ▸ .tail _ hx
  have hlast : v ∈ s.path := hpath ▸ .head _
  exact
    { __ := h
      path := (sublist_cons_self _ _).trans (hpath ▸ h.path)
      down := fun x hx => h.down x (htail hx)
      up := fun x hx => by
        obtain ⟨y, hy, hle, hreach⟩ := h.up x hx
        rw [hpath] at hy
        rcases mem_cons.mp hy with rfl | hy
        · -- from the vertex on to its low link, and from there to a visited vertex
          obtain ⟨z, hz, hnum, hlow⟩ := h.low_reached y hlast
          obtain ⟨y', hy', hle', hreach'⟩ := h.up z hz
          rw [hpath] at hy'
          rcases mem_cons.mp hy' with rfl | hy'
          · omega
          · have hbelow : s.num y' ≤ s.num x := by omega
            exact ⟨y', hy', hbelow, hreach.trans (hlow.trans hreach')⟩
        · exact ⟨y, hy, hle, hreach⟩
      followed := fun x hx y hedge => h.followed x hx y (followed_of_cons hwork hdone hedge)
      low_le := fun x hx => h.low_le x (htail hx)
      low_reached := fun x hx => h.low_reached x (htail hx)
      low_least := fun x hx u hu hunder y hy hedge => by
        have hedge' := followed_of_cons hwork hdone hedge
        rcases Nat.lt_or_ge (s.num u) (s.num v) with hbelow | habove
        · refine h.low_least x (htail hx) u hu ⟨hunder.1, fun z hz hle => ?_⟩ y hy hedge'
          rw [hpath] at hz
          rcases mem_cons.mp hz with rfl | hz
          · omega
          · exact hunder.2 z hz hle
        · have hlow := h.low_least v hlast u hu (h.under_last hwork habove) y hy hedge'
          refine Nat.le_trans (hparent x hx fun z hz => ?_) hlow
          exact hunder.2 z hz (Nat.le_trans (Nat.le_of_lt (h.num_lt hwork hz)) habove) }

/-! ### A complete component -/

theorem splitBelow_append (v : Nat) (stack : List Nat) :
    (splitBelow v stack).1 ++ (splitBelow v stack).2 = stack := by
  induction stack with
  | nil => rfl
  | cons w stack ih =>
    rw [splitBelow]
    split
    · rfl
    · exact congrArg (w :: ·) ih

/-- Vertices are taken off the stack down to the given one. -/
theorem num_splitBelow {stack : List Nat} (h : stack.Pairwise fun v w => s.num w < s.num v)
    (hv : v ∈ stack) :
    (∀ u ∈ (splitBelow v stack).1, s.num v ≤ s.num u) ∧
      ∀ u ∈ (splitBelow v stack).2, s.num u < s.num v := by
  induction stack with
  | nil => cases hv
  | cons w stack ih =>
    obtain ⟨hw, h⟩ := pairwise_cons.mp h
    rw [splitBelow]
    split
    · subst w
      exact ⟨fun u hu => mem_singleton.mp hu ▸ Nat.le_refl _, hw⟩
    · have hv := (mem_cons.mp hv).resolve_left (Ne.symm ‹_›)
      obtain ⟨habove, hbelow⟩ := ih h hv
      exact ⟨forall_mem_cons.mpr ⟨Nat.le_of_lt (hw v hv), habove⟩, hbelow⟩

section Complete

variable (h : Valid g s) (hwork : s.work = (v, edge) :: work) (hdone : (depsOf g v)[edge]? = none)
  (hroot : s.low v = s.num v)

include h hwork hdone hroot

/-- The edges of what is above the vertex stay there or lead to complete components. -/
theorem edge_above (hu : u ∈ s.stack) (hle : s.num v ≤ s.num u) (hedge : Edge g u w) :
    w ∈ s.stack ∧ s.num v ≤ s.num w ∨ w ∈ s.components.flatten := by
  have hfollowed := h.followed_of_none hwork hdone hle hedge
  refine ((h.entered w).mp (h.followed u hu w hfollowed)).imp_left fun hw => ⟨hw, ?_⟩
  have hlast : v ∈ s.path := by simp [Search.path, hwork]
  exact hroot ▸ h.low_least v hlast u hu (h.under_last hwork hle) w hw hfollowed

theorem reaches_above (hu : u ∈ s.stack) (hle : s.num v ≤ s.num u) (hreach : Reaches g u w) :
    w ∈ s.stack ∧ s.num v ≤ s.num w ∨ w ∈ s.components.flatten := by
  induction hreach with
  | refl => exact .inl ⟨hu, hle⟩
  | tail _ hedge ih =>
    rcases ih with ⟨hx, hle⟩ | hx
    · exact h.edge_above hwork hdone hroot hx hle hedge
    · exact .inr (h.emitted.mem_flatten_of_edge hx hedge)

/-- What is above the vertex reaches it. -/
theorem reaches_root (hu : u ∈ s.stack) (hle : s.num v ≤ s.num u) : Reaches g u v := by
  obtain ⟨y, hy, -, hreach⟩ := h.up u hu
  rcases h.reaches_above hwork hdone hroot hu hle hreach with ⟨-, hle'⟩ | hdone'
  · rw [Search.path, hwork] at hy
    rcases mem_cons.mp hy with rfl | hy
    · exact hreach
    · exact absurd hle' (Nat.not_le.mpr (h.num_lt hwork hy))
  · exact absurd hdone' ((nodup_append.mp h.nodup).2.2 y (h.mem_stack hy) y · rfl)

/-- Take a component off the stack. -/
theorem complete : Valid g (({ s with work } : Search).complete v) := by
  have hpath : s.path = v :: work.map Prod.fst := by rw [Search.path, hwork, map_cons]
  have htail {x : Nat} (hx : x ∈ work.map Prod.fst) : x ∈ s.path := hpath ▸ .tail _ hx
  have hv : v ∈ s.stack := h.mem_stack (hpath ▸ .head _)
  obtain ⟨habove, hbelow⟩ := num_splitBelow h.descending hv
  have hsplit := splitBelow_append v s.stack
  generalize hparts : splitBelow v s.stack = parts at habove hbelow hsplit
  obtain ⟨component, rest⟩ := parts
  simp only at habove hbelow hsplit
  have hmem {x : Nat} : x ∈ s.stack ↔ x ∈ component ∨ x ∈ rest := by rw [← hsplit, mem_append]
  have hrest {x : Nat} (hx : x ∈ rest) : x ∈ s.stack := hmem.mpr (.inr hx)
  have hcomponent {x : Nat} : x ∈ component ↔ x ∈ s.stack ∧ s.num v ≤ s.num x :=
    ⟨fun hx => ⟨hmem.mpr (.inl hx), habove x hx⟩, fun ⟨hx, hle⟩ =>
      (hmem.mp hx).resolve_right fun hx => absurd (hbelow x hx) (Nat.not_lt.mpr hle)⟩
  have hlower {x : Nat} (hx : x ∈ s.stack) (hlt : s.num x < s.num v) : x ∈ rest :=
    (hmem.mp hx).resolve_left fun hx => absurd (habove x hx) (Nat.not_le.mpr hlt)
  have heq : ({ s with work } : Search).complete v =
      { s with
        work
        onStack := component.foldl (fun onStack w => onStack.setIfInBounds w false) s.onStack
        stack := rest
        components := s.components ++ [Sorted.ofList component] } := by
    simp only [Search.complete, hparts]
  have hnodup := h.nodup
  rw [← hsplit] at hnodup
  rw [heq]
  exact
    { __ := h
      onStack_size := (size_foldl_setIfInBounds _ _ _).trans h.onStack_size
      onStack := fun x => by
        have hdisjoint : x ∈ rest → x ∉ component := fun hx hx' =>
          absurd (hbelow x hx) (Nat.not_lt.mpr (habove x hx'))
        have hlt (hx : x ∈ component) : x < s.onStack.size :=
          h.onStack_size ▸ h.lt_length (hmem.mpr (.inl hx))
        have honStack := h.onStack x
        rw [hmem] at honStack
        rw [getD_foldl_setIfInBounds]
        grind
      entered := fun x => by
        refine (h.entered x).trans ?_
        rw [hmem, flatten_append, mem_append, flatten_singleton, Sorted.mem_ofList]
        tauto
      nodup := by
        have hperm : (Sorted.ofList component).Perm component :=
          (perm_ext_iff_of_nodup (Sorted.isSorted_ofList _).nodup
            (nodup_append.mp (nodup_append.mp hnodup).1).1).mpr fun _ => Sorted.mem_ofList
        rw [flatten_append, flatten_singleton, ← append_assoc]
        rw [append_assoc] at hnodup
        exact (((hperm.append_left _).trans perm_append_comm).nodup_iff).mpr hnodup
      earlier := fun x hx => h.earlier x (hrest hx)
      descending := (pairwise_append.mp (hsplit ▸ h.descending)).2.1
      path := by
        have hsublist := ((sublist_cons_self _ _).trans (hpath ▸ h.path)).filter
          fun x => decide (s.num x < s.num v)
        rw [← hsplit, filter_append, filter_eq_self.mpr fun x hx => ?_,
          filter_eq_nil_iff.mpr fun x hx => ?_, nil_append,
          filter_eq_self.mpr fun x hx => ?_] at hsublist
        · exact hsublist
        · exact decide_eq_true (hbelow x hx)
        · simpa using habove x hx
        · exact decide_eq_true (h.num_lt hwork hx)
      down := fun x hx y hy => h.down x (htail hx) y (hrest hy)
      up := fun x hx => by
        obtain ⟨y, hy, hle, hreach⟩ := h.up x (hrest hx)
        rw [hpath] at hy
        rcases mem_cons.mp hy with rfl | hy
        · exact absurd (hbelow x hx) (Nat.not_lt.mpr hle)
        · exact ⟨y, hy, hle, hreach⟩
      followed := fun x hx y hedge =>
        h.followed x (hrest hx) y (followed_of_cons hwork hdone hedge)
      low_le := fun x hx => h.low_le x (htail hx)
      low_reached := fun x hx => by
        obtain ⟨y, hy, hnum, hreach⟩ := h.low_reached x (htail hx)
        have hle := h.low_le x (htail hx)
        have hlt := h.num_lt hwork hx
        exact ⟨y, hlower hy (by omega), hnum, hreach⟩
      low_least := fun x hx u hu hunder y hy hedge => by
        refine h.low_least x (htail hx) u (hrest hu) ⟨hunder.1, fun z hz hle => ?_⟩ y (hrest hy)
          (followed_of_cons hwork hdone hedge)
        rw [hpath] at hz
        rcases mem_cons.mp hz with rfl | hz
        · exact absurd (hbelow u hu) (Nat.not_lt.mpr hle)
        · exact hunder.2 z hz hle
      emitted := by
        refine h.emitted.concat (ne_nil_of_mem (hcomponent.mpr ⟨hv, Nat.le_refl _⟩))
          (fun x hx y hedge => ?_) fun x hx y hy => ?_
        · obtain ⟨hx, hle⟩ := hcomponent.mp hx
          exact (h.edge_above hwork hdone hroot hx hle hedge).imp_left hcomponent.mpr
        · obtain ⟨hx, hle⟩ := hcomponent.mp hx
          obtain ⟨hy, hle'⟩ := hcomponent.mp hy
          exact (h.reaches_root hwork hdone hroot hx hle).trans
            (h.down v (hpath ▸ .head _) y hy hle') }

end Complete

/-! ### Whole steps -/

theorem lower_eq_self (hle : s.low v ≤ k) : s.lower v k = s := by
  have hsame : s.lowlink.setIfInBounds v (s.low v) = s.lowlink := by
    refine Array.ext (Array.size_setIfInBounds ..) fun i hi hi' => ?_
    rw [Array.getElem_setIfInBounds]
    split
    · subst i
      simp [low, Array.getD, hi']
    · rfl
  rw [Search.lower, Nat.min_eq_left hle, hsame]

theorem leave (h : Valid g s) (hwork : s.work = (v, edge) :: work)
    (hdone : (depsOf g v)[edge]? = none) : Valid g (({ s with work } : Search).leave v) := by
  have hpath : s.path = v :: work.map Prod.fst := by rw [Search.path, hwork, map_cons]
  have hlast : v ∈ s.path := hpath ▸ .head _
  have hindex := h.indexOf?_eq (h.mem_stack hlast)
  rcases Nat.lt_or_eq_of_le (h.low_le v hlast) with hlt | hroot
  · have hclose : ({ s with work } : Search).close v = { s with work } :=
      if_neg fun heq => Nat.ne_of_lt hlt (Option.some.inj (hindex.symm.trans heq)).symm
    obtain ⟨z, hz, hnum, hreach⟩ := h.low_reached v hlast
    cases work with
    | nil =>
      -- the low link of the first vertex is its own number
      obtain ⟨y, hy, hle, -⟩ := h.up z hz
      rw [hpath] at hy
      obtain rfl := mem_singleton.mp hy
      omega
    | cons entry work =>
      obtain ⟨parent, e⟩ := entry
      have hbelow : s.num parent < s.num v := h.num_lt hwork (.head _)
      have hparent : parent ∈ s.path := hpath ▸ .tail _ (.head _)
      have hdown := h.down parent hparent v (h.mem_stack hlast) (Nat.le_of_lt hbelow)
      have hlower := h.lower hparent ⟨z, hz, hnum, hdown.trans hreach⟩
      have hlow := low_lower (h.lowlink_size ▸ h.lt_length (h.mem_stack hparent)) (s.low v)
      have hne : v ≠ parent := fun heq => Nat.lt_irrefl _ (heq ▸ hbelow)
      rw [Search.leave, hclose]
      refine hlower.pop hwork hdone ?_ fun u hu hmax => ?_
      · rw [hlow, if_neg hne]
        exact hlt
      · -- only the parent is as high as all that are still visited
        rcases mem_cons.mp hu with heq | hu
        · rw [heq, hlow, hlow, if_pos rfl, if_neg hne]
          exact Nat.min_le_right _ _
        · have hpairs := h.descending.sublist h.path
          rw [hpath, map_cons, pairwise_cons, pairwise_cons] at hpairs
          exact absurd (hmax parent (.head _)) (Nat.not_le.mpr (hpairs.2.1 u hu))
  · have hclose : ({ s with work } : Search).close v = ({ s with work } : Search).complete v :=
      if_pos (hindex.trans (congrArg some hroot.symm))
    have hcomplete := h.complete hwork hdone hroot
    rw [Search.leave, hclose]
    cases work with
    | nil => exact hcomplete
    | cons entry work =>
      obtain ⟨parent, e⟩ := entry
      have hbelow : s.num parent < s.num v := h.num_lt hwork (.head _)
      have hle := h.low_le parent (hpath ▸ .tail _ (.head _))
      have hparent : (({ s with work := (parent, e) :: work } : Search).complete v).low parent ≤
          s.low v := by
        change s.low parent ≤ s.low v
        omega
      simp only
      rw [show ({ s with work := (parent, e) :: work } : Search).low v = s.low v from rfl,
        lower_eq_self hparent]
      exact hcomplete

theorem step (h : Valid g s) (hwork : s.work = (v, edge) :: work) :
    Valid g (s.step g v edge work) := by
  rw [Search.step]
  have hv : v ∈ s.path := by simp [Search.path, hwork]
  rcases hedge : (depsOf g v)[edge]? with _ | w
  · exact h.leave hwork hedge
  · have hmem : w ∈ depsOf g v := mem_of_getElem? hedge
    have hsize : ({ s with work := (v, edge + 1) :: work } : Search).index.size = g.length :=
      h.index_size
    simp only [Search.follow, hsize]
    split
    · rename_i hw
      have hlast : v ∈ s.stack := h.mem_stack hv
      split
      · rename_i hnone
        have hreach (u : Nat) (hu : u ∈ s.path) : Reaches g u w :=
          (h.down u hu v hlast (h.num_le hwork hu)).tail ⟨hmem, hw⟩
        have henter := h.enter hw hnone hreach
        refine henter.advance [(w, 0)] (congrArg _ hwork) hedge (fun _ => ?_)
          fun _ => ?_
        · exact (henter.entered w).mpr (.inl (.head _))
        · -- the vertex has been entered last
          have hle := henter.low_le v (.tail _ hv)
          have hnum := henter.descending
          exact Nat.le_trans hle (Nat.le_of_lt ((pairwise_cons.mp hnum).1 v hlast))
      · rename_i i hindex
        split
        · rename_i hstack
          have hw := (h.onStack w).mp hstack
          have hnum : s.num w = i := congrArg (Option.getD · 0) hindex
          have hlower := h.lower hv ⟨w, hw, hnum, .single ⟨hmem, ‹_›⟩⟩
          refine hlower.advance [] hwork hedge
            (fun _ => (hlower.entered w).mpr (.inl hw)) fun _ => ?_
          rw [low_lower (h.lowlink_size ▸ h.lt_length hlast), if_pos rfl]
          exact Nat.le_trans (Nat.min_le_right _ _) (Nat.le_of_eq hnum.symm)
        · rename_i hstack
          exact h.advance [] hwork hedge
            (fun _ => by simp [show s.indexOf? w = some i from hindex])
            fun hw => absurd ((h.onStack w).mpr hw) hstack
    · rename_i hw
      exact h.advance [] hwork hedge (absurd · hw) fun hstack =>
        absurd (h.lt_length hstack) hw

/-! ## The whole search -/

theorem start (g : Graph) : Valid g (.start g.length) where
  index_size := Array.size_replicate
  lowlink_size := Array.size_replicate
  onStack_size := Array.size_replicate
  onStack v := by simp [Search.start, Array.getD]
  entered v := by simp [Search.start, indexOf?, Array.getD]
  nodup := nodup_nil
  earlier := forall_mem_nil _
  descending := .nil
  path := .slnil
  down := forall_mem_nil _
  up := forall_mem_nil _
  followed := forall_mem_nil _
  low_le := forall_mem_nil _
  low_reached := forall_mem_nil _
  low_least := forall_mem_nil _
  emitted := .nil g

theorem run (h : Valid g s) : Valid g (s.run g) := by
  fun_induction Search.run g s with
  | case1 s hwork => exact h
  | case2 s v edge work hwork ih => exact ih (h.step hwork)

end Valid

theorem work_run (g : Graph) (s : Search) : (s.run g).work = [] := by
  fun_induction Search.run g s with
  | case1 s hwork => exact hwork
  | case2 s v edge work hwork ih => exact ih

theorem entered_enter (h : s.indexOf? u ≠ none) (v : Nat) : (s.enter v).indexOf? u ≠ none := by
  simp only [indexOf?, enter, getD_setIfInBounds]
  split
  · exact Option.some_ne_none _
  · exact h

theorem entered_step (h : s.indexOf? u ≠ none) : (s.step g v edge work).indexOf? u ≠ none := by
  rw [step]
  split
  · rw [follow]
    split
    · split
      · exact entered_enter (s := { s with work := (v, edge + 1) :: work }) h _
      · split <;> exact h
    · exact h
  · rw [indexOf?, index_leave]
    exact h

/-- Vertices that have been entered stay so. -/
theorem entered_run (h : s.indexOf? u ≠ none) : (s.run g).indexOf? u ≠ none := by
  fun_induction run g s with
  | case1 s hwork => exact h
  | case2 s v edge work hwork ih => exact ih (entered_step h)

/-- The search between two visits: nothing is visited, and the given vertices have been entered. -/
structure Rests (g : Graph) (s : Search) (vs : List Nat) : Prop where
  valid : Valid g s
  work : s.work = []
  entered : ∀ v ∈ vs, s.indexOf? v ≠ none

theorem Rests.visit {vs : List Nat} (h : Rests g s vs) (hv : v < g.length) :
    Rests g (s.visit g v) (vs ++ [v]) := by
  rw [Search.visit]
  split
  · rename_i hnone
    have henter := h.valid.enter hv hnone (by simp [path, h.work])
    refine ⟨henter.run, work_run g _, forall_mem_append.mpr ⟨fun u hu => ?_, ?_⟩⟩
    · exact entered_run (entered_enter (h.entered u hu) v)
    · exact forall_mem_singleton.mpr
        (entered_run ((henter.entered v).mpr (.inl (mem_cons_self ..))))
  · rename_i hentered
    exact ⟨h.valid, h.work, forall_mem_append.mpr
      ⟨h.entered, forall_mem_singleton.mpr hentered⟩⟩

theorem Rests.foldl_visit {vs : List Nat} (h : Rests g s vs) (more : List Nat)
    (hmore : ∀ v ∈ more, v < g.length) : Rests g (more.foldl (Search.visit g) s) (vs ++ more) := by
  induction more generalizing s vs with
  | nil => rwa [append_nil]
  | cons v more ih =>
    have hrest := ih (h.visit (hmore v (.head _))) fun u hu => hmore u (.tail _ hu)
    rwa [append_assoc] at hrest

end Search

/-! ## The components of a graph -/

theorem rests_search (g : Graph) :
    ((List.range g.length).foldl (Search.visit g) (.start g.length)).Rests g
      (List.range g.length) := by
  have hstart : (Search.start g.length).Rests g [] := ⟨.start g, rfl, forall_mem_nil _⟩
  exact hstart.foldl_visit (List.range g.length) fun _ => mem_range.mp

theorem emitted_components (g : Graph) : Emitted g (components g) :=
  (rests_search g).valid.emitted

/-- Every vertex is in exactly one component. -/
theorem components_flatten_perm (g : Graph) :
    (components g).flatten.Perm (List.range g.length) := by
  obtain ⟨hvalid, hwork, hentered⟩ := rests_search g
  -- everything on the stack reaches a visited vertex, and none is left
  have hstack := eq_nil_iff_forall_not_mem.mpr fun v hv => by
    obtain ⟨w, hw, -⟩ := hvalid.up v hv
    simp [Search.path, hwork] at hw
  have hnodup := hvalid.nodup
  rw [hstack, nil_append] at hnodup
  refine (perm_ext_iff_of_nodup hnodup nodup_range).mpr fun v => ⟨fun hv => ?_, fun hv => ?_⟩
  · exact mem_range.mpr (hvalid.lt_length_of_entered ((hvalid.entered v).mpr (.inr hv)))
  · have hin := (hvalid.entered v).mp (hentered v hv)
    rw [hstack] at hin
    exact hin.resolve_left not_mem_nil

end RowTyping.Dependencies
