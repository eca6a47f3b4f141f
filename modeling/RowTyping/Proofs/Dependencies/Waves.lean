import Mathlib.Data.List.Induction
import Mathlib.Data.List.Permutation
import RowTyping.Proofs.Dependencies.Search

/-!
# Dependency waves are complete and in order

Components are found after those they depend on, so the pass over them finds for each a level above
the levels of all it depends on, by exactly one above the highest (`getD_levels`). The waves are the
components by level: they hold each vertex once, and a vertex comes after those it depends on, or in
one component with them.
-/

namespace RowTyping.Dependencies

open List

variable {g : Graph} {cs : List (List Nat)} {c d : List Nat} {i j k v w : Nat}

/-! ## Numbers of components -/

theorem eq_of_mem_of_mem (h : cs.flatten.Nodup) (hi : cs[i]? = some c) (hj : cs[j]? = some d)
    (hc : v ∈ c) (hd : v ∈ d) : i = j := by
  obtain ⟨hlt, rfl⟩ := List.getElem?_eq_some_iff.mp hi
  obtain ⟨hlt', rfl⟩ := List.getElem?_eq_some_iff.mp hj
  have hdisjoint := List.pairwise_iff_getElem.mp (List.nodup_flatten.mp h).2
  rcases Nat.lt_trichotomy i j with hless | heq | hless
  · exact absurd hd (hdisjoint i j hlt hlt' hless hc)
  · exact heq
  · exact absurd hc (hdisjoint j i hlt' hlt hless hd)

theorem size_componentOf (n : Nat) (cs : List (List Nat)) : (componentOf n cs).size = n := by
  rw [componentOf]
  refine List.foldlRecOn (motive := fun xs : Array Nat => xs.size = n) _ _ Array.size_replicate
    fun xs hxs entry _ => ?_
  rw [size_foldl_setIfInBounds, hxs]

/-- Every vertex has the number of its component. -/
theorem getD_componentOf {n : Nat} (h : cs.flatten.Nodup) (hi : cs[i]? = some c) (hv : v ∈ c)
    (hlt : v < n) : (componentOf n cs).getD v 0 = i := by
  induction cs using List.reverseRecOn with
  | nil => simp at hi
  | append_singleton cs d ih =>
    have hlast : componentOf n (cs ++ [d]) =
        d.foldl (fun xs v => xs.setIfInBounds v cs.length) (componentOf n cs) := by
      simp [componentOf, zipIdx_append]
    rw [hlast, getD_foldl_setIfInBounds, size_componentOf]
    split
    · rename_i hd
      exact (eq_of_mem_of_mem h hi List.getElem?_concat_length hv hd.1).symm
    · rename_i hd
      have hne : i ≠ cs.length := by
        rintro rfl
        rw [List.getElem?_concat_length] at hi
        exact hd ⟨Option.some.inj hi ▸ hv, hlt⟩
      rw [flatten_append] at h
      refine ih (nodup_append.mp h).1 ?_
      rwa [List.getElem?_append_left] at hi
      have := (List.getElem?_eq_some_iff.mp hi).1
      simp at this
      omega

/-! ## Levels -/

section Levels

variable {ofVertex levels levels' : Array Nat}

/-- The level of a component is found from the levels of other components only. -/
theorem levelOf_congr (h : ∀ v ∈ c, ∀ w ∈ depsOf g v, ofVertex.getD w 0 ≠ i →
      levels.getD (ofVertex.getD w 0) 0 = levels'.getD (ofVertex.getD w 0) 0) :
    levelOf g ofVertex levels c i = levelOf g ofVertex levels' c i := by
  refine congrArg (fun ns : List Nat => ns.max?.getD 0) (map_congr_left fun d hd => ?_)
  obtain ⟨hd, hne⟩ := mem_filter.mp hd
  obtain ⟨w, hw, rfl⟩ := mem_map.mp hd
  obtain ⟨v, hv, hw⟩ := mem_flatMap.mp hw
  rw [h v hv w hw (of_decide_eq_true hne)]

/-- The levels of the given components are what the levels of those they depend on make them. -/
structure Leveled (g : Graph) (ofVertex : Array Nat) (cs : List (List Nat)) (levels : Array Nat) :
    Prop where
  level : ∀ (i : Nat) c, cs[i]? = some c → levels.getD i 0 = levelOf g ofVertex levels c i

/-- A component that depends only on itself and on components before it gets its level. -/
theorem Leveled.concat (h : Leveled g ofVertex cs levels) (hsize : cs.length < levels.size)
    (hdeps : ∀ (i : Nat) c', (cs ++ [c])[i]? = some c' →
      ∀ v ∈ c', ∀ w ∈ depsOf g v, ofVertex.getD w 0 ≤ i) :
    Leveled g ofVertex (cs ++ [c])
      (levels.setIfInBounds cs.length (levelOf g ofVertex levels c cs.length)) := by
  refine ⟨fun i c' hi => ?_⟩
  have hsame {d : Nat} (hd : d ≠ cs.length) : levels.getD d 0 =
      (levels.setIfInBounds cs.length (levelOf g ofVertex levels c cs.length)).getD d 0 := by
    rw [getD_setIfInBounds, if_neg fun heq => hd heq.1]
  rcases Nat.lt_trichotomy i cs.length with hlt | rfl | hlt
  · rw [← hsame (Nat.ne_of_lt hlt), h.level i c' (by rwa [List.getElem?_append_left hlt] at hi)]
    refine levelOf_congr fun v hv w hw _ => hsame ?_
    have := hdeps i c' hi v hv w hw
    omega
  · rw [List.getElem?_concat_length] at hi
    obtain rfl := Option.some.inj hi
    rw [getD_setIfInBounds, if_pos ⟨rfl, hsize⟩]
    exact levelOf_congr fun v _ w _ hne => hsame hne
  · rw [getElem?_eq_none (by simp; omega)] at hi
    cases hi

theorem Leveled.foldl (rest : List (List Nat)) (h : Leveled g ofVertex cs levels)
    (hsize : (cs ++ rest).length ≤ levels.size) (hdeps : ∀ (i : Nat) c, (cs ++ rest)[i]? = some c →
      ∀ v ∈ c, ∀ w ∈ depsOf g v, ofVertex.getD w 0 ≤ i) :
    Leveled g ofVertex (cs ++ rest) ((rest.zipIdx cs.length).foldl (fun levels (component, c) =>
      levels.setIfInBounds c (levelOf g ofVertex levels component c)) levels) := by
  induction rest generalizing cs levels with
  | nil => simpa using h
  | cons c rest ih =>
    have hsplit : cs ++ c :: rest = (cs ++ [c]) ++ rest := by simp
    have hlength : cs.length + 1 = (cs ++ [c]).length := by simp
    rw [hsplit] at hsize hdeps ⊢
    rw [zipIdx_cons, foldl_cons, hlength]
    refine ih (h.concat ?_ fun i c' hi => hdeps i c' ?_) ?_ hdeps
    · simp at hsize
      omega
    · rw [List.getElem?_append_left (List.getElem?_eq_some_iff.mp hi).1, hi]
    · rwa [Array.size_setIfInBounds]

end Levels

section Components

variable (hg : ∀ v, ∀ w ∈ depsOf g v, w < g.length)

theorem nodup_components (g : Graph) : (components g).flatten.Nodup :=
  (components_flatten_perm g).nodup_iff.mpr nodup_range

theorem lt_length_of_mem_components (hc : c ∈ components g) (hv : v ∈ c) : v < g.length :=
  mem_range.mp ((components_flatten_perm g).mem_iff.mp (mem_flatten.mpr ⟨c, hc, hv⟩))

variable (hi : (components g)[i]? = some c)
include hi

/-- A vertex has the number of its component. -/
theorem number_eq (hv : v ∈ c) :
    (componentOf g.length (components g)).getD v 0 = i :=
  getD_componentOf (nodup_components g) hi hv (lt_length_of_mem_components (mem_of_getElem? hi) hv)

include hg

/-- A vertex that a component depends on is in a component that is not found later. -/
theorem exists_le_of_dep (hv : v ∈ c) (hw : w ∈ depsOf g v) :
    ∃ j ≤ i, ∃ d, (components g)[j]? = some d ∧ w ∈ d :=
  (emitted_components g).closed i c hi v hv w ⟨hw, hg v w hw⟩

/-- The level of a component is what the levels of those it depends on make it. -/
theorem getD_levels :
    (levels g (components g)).getD i 0 =
      levelOf g (componentOf g.length (components g)) (levels g (components g)) c i := by
  have hnone : Leveled g (componentOf g.length (components g)) []
      (.replicate (components g).length 0) :=
    ⟨by simp⟩
  refine (hnone.foldl (components g) (by simp) fun j d hd v hv w hw => ?_).level i c hi
  obtain ⟨k, hk, d', hd', hw⟩ := exists_le_of_dep hg hd hv hw
  rwa [number_eq hd' hw]

/-- A component is above the others that it depends on. -/
theorem level_lt (hv : v ∈ c) (hw : w ∈ depsOf g v)
    (hj : (components g)[j]? = some d) (hd : w ∈ d) (hne : j ≠ i) :
    (levels g (components g)).getD j 0 < (levels g (components g)).getD i 0 := by
  rw [getD_levels hg hi, Nat.lt_iff_add_one_le, levelOf]
  refine le_max?_getD_of_mem (mem_map.mpr ⟨j, mem_filter.mpr ⟨?_, decide_eq_true hne⟩, rfl⟩)
  exact mem_map.mpr ⟨w, mem_flatMap.mpr ⟨v, hv, hw⟩, number_eq hj hd⟩

/-- A component is directly above one that it depends on, unless it is at the bottom. -/
theorem exists_level_eq
    (hlevel : (levels g (components g)).getD i 0 = k + 1) :
    ∃ v ∈ c, ∃ w ∈ depsOf g v, ∃ j d, (components g)[j]? = some d ∧ w ∈ d ∧
      (levels g (components g)).getD j 0 = k := by
  rw [getD_levels hg hi, levelOf] at hlevel
  have hmax := (Option.getD_eq_iff.mp hlevel).resolve_right fun hnone => by omega
  obtain ⟨j, hj, heq⟩ := mem_map.mp (max?_mem hmax)
  obtain ⟨w, hw, hnumber⟩ := mem_map.mp (mem_filter.mp hj).1
  obtain ⟨v, hv, hw⟩ := mem_flatMap.mp hw
  obtain ⟨j', -, d, hd, hwd⟩ := exists_le_of_dep hg hi hv hw
  obtain rfl : j' = j := (number_eq hd hwd).symm.trans hnumber
  exact ⟨v, hv, w, hw, j', d, hd, hwd, by omega⟩

end Components

/-! ## Waves -/

section Place

variable {ws : List (List (List Nat))} {level : Nat → Nat}

theorem getD_place (ws : List (List (List Nat))) (l : Nat) (c : List Nat) (k : Nat) :
    (place ws l c).getD k [] = if k = l then ws.getD k [] ++ [c] else ws.getD k [] := by
  have hpadded : (ws ++ List.replicate (l + 1 - ws.length) []).getD k [] = ws.getD k [] := by
    simp only [getD_eq_getElem?_getD, getElem?_append, getElem?_replicate]
    grind
  simp only [place, getD_eq_getElem?_getD, getElem?_modify] at hpadded ⊢
  rcases hk : (ws ++ List.replicate (l + 1 - ws.length) [])[k]? with _ | wave
  · have hlength := getElem?_eq_none_iff.mp hk
    simp only [length_append, length_replicate] at hlength
    rw [hk] at hpadded
    rw [← hpadded, if_neg (by omega)]
    rfl
  · rw [hk] at hpadded
    rw [← hpadded]
    by_cases hl : l = k <;> simp [hl, eq_comm]

theorem flatten_place_perm (ws : List (List (List Nat))) (l : Nat) (c : List Nat) :
    (place ws l c).flatten.Perm (ws.flatten ++ [c]) := by
  have hmodify (waves : List (List (List Nat))) (n : Nat) (hn : n < waves.length) :
      (waves.modify n (· ++ [c])).flatten.Perm (waves.flatten ++ [c]) := by
    induction waves generalizing n with
    | nil => simp at hn
    | cons wave waves ih =>
      cases n with
      | zero =>
        simp only [modify_zero_cons, flatten_cons, append_assoc]
        exact perm_append_comm.append_left wave
      | succ n =>
        simp only [modify_succ_cons, flatten_cons, append_assoc]
        exact (ih n (by simpa using hn)).append_left wave
  refine (hmodify _ l (by simp; omega)).trans ?_
  simp

/-- The waves hold the given components by their levels. -/
structure Placed (level : Nat → Nat) (cs : List (List Nat)) (ws : List (List (List Nat))) :
    Prop where
  perm : ws.flatten.Perm cs
  mem : ∀ k c, c ∈ ws.getD k [] ↔ ∃ i : Nat, cs[i]? = some c ∧ level i = k

theorem Placed.place (h : Placed level cs ws) (c : List Nat) :
    Placed level (cs ++ [c]) (place ws (level cs.length) c) where
  perm := (flatten_place_perm ws _ c).trans (h.perm.append_right [c])
  mem k d := by
    have hmem := h.mem k d
    rw [getD_place]
    constructor
    · intro hd
      split at hd
      · rcases mem_append.mp hd with hd | hd
        · obtain ⟨i, hi, hlevel⟩ := hmem.mp hd
          exact ⟨i, by rw [List.getElem?_append_left (List.getElem?_eq_some_iff.mp hi).1,
            hi], hlevel⟩
        · exact ⟨cs.length, by rw [List.getElem?_concat_length,
            List.mem_singleton.mp hd], by simp [*]⟩
      · obtain ⟨i, hi, hlevel⟩ := hmem.mp hd
        exact ⟨i, by rw [List.getElem?_append_left (List.getElem?_eq_some_iff.mp hi).1, hi], hlevel⟩
    · rintro ⟨i, hi, hlevel⟩
      rcases Nat.lt_trichotomy i cs.length with hlt | rfl | hlt
      · rw [List.getElem?_append_left hlt] at hi
        have hd := hmem.mpr ⟨i, hi, hlevel⟩
        split
        · exact mem_append_left _ hd
        · exact hd
      · rw [List.getElem?_concat_length] at hi
        rw [if_pos hlevel.symm]
        exact mem_append_right _ (List.mem_singleton.mpr (Option.some.inj hi).symm)
      · rw [getElem?_eq_none (by simp; omega)] at hi
        cases hi

theorem Placed.foldl (rest : List (List Nat)) (h : Placed level cs ws) :
    Placed level (cs ++ rest) ((rest.zipIdx cs.length).foldl (fun waves (component, c) =>
      Dependencies.place waves (level c) component) ws) := by
  induction rest generalizing cs ws with
  | nil => simpa using h
  | cons c rest ih =>
    have hrest := ih (h.place c)
    rw [append_assoc, length_append] at hrest
    exact hrest

end Place

/-- The components by their levels, before each wave is sorted. -/
theorem exists_placed (g : Graph) :
    ∃ ws, Placed ((levels g (components g)).getD · 0) (components g) ws ∧
    waves g = ws.map (·.mergeSort startsFirst) :=
  have hnone : Placed ((levels g (components g)).getD · 0) [] [] := ⟨.nil, by simp⟩
  ⟨_, hnone.foldl (components g), rfl⟩

/-- A wave holds the components of its level. -/
theorem mem_waves_iff : c ∈ (waves g).getD k [] ↔
    ∃ i : Nat, (components g)[i]? = some c ∧ (levels g (components g)).getD i 0 = k := by
  obtain ⟨ws, hplaced, heq⟩ := exists_placed g
  rw [← hplaced.mem, heq, getD_eq_getElem?_getD, getD_eq_getElem?_getD, getElem?_map]
  cases ws[k]? with
  | none => rfl
  | some wave => exact (mergeSort_perm wave startsFirst).mem_iff

/-- The waves hold every component once. -/
theorem flatten_waves_perm (g : Graph) : (waves g).flatten.Perm (components g) := by
  obtain ⟨ws, hplaced, heq⟩ := exists_placed g
  refine .trans ?_ hplaced.perm
  rw [heq]
  clear heq hplaced
  induction ws with
  | nil => exact .nil
  | cons wave ws ih => exact (mergeSort_perm wave startsFirst).append ih

theorem waves_flatten_perm (g : Graph) : (waves g).flatten.flatten.Perm (List.range g.length) :=
  (flatten_waves_perm g).flatten.trans (components_flatten_perm g)

/-- What a component depends on outside itself comes in an earlier wave. -/
theorem exists_earlier (hg : ∀ v, ∀ w ∈ depsOf g v, w < g.length) (hc : c ∈ (waves g).getD k [])
    (hv : v ∈ c) (hw : w ∈ depsOf g v) (hout : w ∉ c) :
    ∃ j < k, ∃ d ∈ (waves g).getD j [], w ∈ d := by
  obtain ⟨i, hi, rfl⟩ := mem_waves_iff.mp hc
  obtain ⟨j, -, d, hd, hwd⟩ := exists_le_of_dep hg hi hv hw
  have hne : j ≠ i := by
    rintro rfl
    exact hout (Option.some.inj (hi.symm.trans hd) ▸ hwd)
  exact ⟨_, level_lt hg hi hv hw hd hwd hne, d, mem_waves_iff.mpr ⟨j, hd, rfl⟩, hwd⟩

/-- The first member of the first list is smaller than that of the second. -/
def StartsBefore (c d : List Nat) : Prop :=
  ∃ v ∈ c.head?, ∃ w ∈ d.head?, v < w

theorem pairwise_startsBefore {wave : List (List Nat)} (h : wave ∈ waves g) :
    wave.Pairwise StartsBefore := by
  have hnodup := (waves_flatten_perm g).nodup_iff.mpr nodup_range
  have hdisjoint := (pairwise_flatten.mp (List.nodup_flatten.mp hnodup).2).1 wave h
  have hcomponent {c : List Nat} (hc : c ∈ wave) : c ≠ [] :=
    (emitted_components g).nonempty c
      ((flatten_waves_perm g).mem_iff.mp (mem_flatten.mpr ⟨wave, h, hc⟩))
  have hsorted : wave.Pairwise fun c d => startsFirst c d = true := by
    obtain ⟨ws, -, heq⟩ := exists_placed g
    rw [heq] at h
    obtain ⟨wave, -, rfl⟩ := mem_map.mp h
    refine pairwise_mergeSort (fun b c d hbc hcd => ?_) (fun c d => ?_) wave
    · simp only [startsFirst, decide_eq_true_eq] at hbc hcd ⊢
      omega
    · simp only [startsFirst, Bool.or_eq_true, decide_eq_true_eq]
      omega
  refine (hsorted.and hdisjoint).imp_of_mem fun {c d} hc hd h => ?_
  obtain ⟨v, c, rfl⟩ := exists_cons_of_ne_nil (hcomponent hc)
  obtain ⟨w, d, rfl⟩ := exists_cons_of_ne_nil (hcomponent hd)
  have hle : v ≤ w := by simpa [startsFirst] using h.1
  have hne : v ≠ w := fun heq => h.2 (.head _) (heq ▸ .head _)
  exact ⟨v, rfl, w, rfl, by omega⟩

/-- Components in waves: every vertex once, grouped by mutual reachability, each component as early
as its dependencies allow. -/
structure IsOrderOf (g : Graph) (ws : List (List (List Nat))) : Prop where
  /-- Every vertex is listed exactly once. -/
  once : ws.flatten.flatten.Perm (List.range g.length)
  /-- Two vertices are in one component exactly if each can be reached from the other. -/
  classes : ∀ v < g.length, ∀ w < g.length,
    (∃ c ∈ ws.flatten, v ∈ c ∧ w ∈ c) ↔ Reaches g v w ∧ Reaches g w v
  /-- An edge that leaves a component leads to a component in an earlier wave. -/
  earlier : ∀ k, ∀ c ∈ ws.getD k [], ∀ v ∈ c, ∀ w ∈ depsOf g v, w ∉ c →
    ∃ j < k, ∃ d ∈ ws.getD j [], w ∈ d
  /-- A component that is not in the first wave has an edge into the wave directly before its
  own. -/
  tight : ∀ k, ∀ c ∈ ws.getD (k + 1) [], ∃ v ∈ c, ∃ w ∈ depsOf g v, ∃ d ∈ ws.getD k [], w ∈ d
  /-- The members of a component are in increasing order. -/
  ascending : ∀ c ∈ ws.flatten, c.Pairwise (· < ·)
  /-- The components of a wave are ordered by their first members. -/
  byFirst : ∀ wave ∈ ws, wave.Pairwise StartsBefore

/-- A path leads to no component that is found later. -/
theorem exists_le_of_reaches (hi : (components g)[i]? = some c) (hv : v ∈ c) (h : Reaches g v w) :
    ∃ j ≤ i, ∃ d, (components g)[j]? = some d ∧ w ∈ d := by
  induction h with
  | refl => exact ⟨i, Nat.le_refl i, c, hi, hv⟩
  | tail _ hedge ih =>
    obtain ⟨j, hj, d, hd, hx⟩ := ih
    obtain ⟨k, hk, e, he, hy⟩ := (emitted_components g).closed j d hd _ hx _ hedge
    exact ⟨k, Nat.le_trans hk hj, e, he, hy⟩

/-- Vertices that reach each other are in one component. -/
theorem same_component (hi : (components g)[i]? = some c) (hv : v ∈ c) (hvw : Reaches g v w)
    (hwv : Reaches g w v) : w ∈ c := by
  obtain ⟨j, hj, d, hd, hw⟩ := exists_le_of_reaches hi hv hvw
  obtain ⟨k, hk, e, he, hv'⟩ := exists_le_of_reaches hd hw hwv
  obtain rfl : i = k := eq_of_mem_of_mem (nodup_components g) hi he hv hv'
  obtain rfl : i = j := Nat.le_antisymm hk hj
  exact Option.some.inj (hd.symm.trans hi) ▸ hw

/-- The waves of a graph whose edges stay in range are an order of its components. -/
theorem waves_isOrderOf (hg : ∀ v, ∀ w ∈ depsOf g v, w < g.length) : IsOrderOf g (waves g) where
  once := waves_flatten_perm g
  classes v hv w _ := by
    constructor
    · rintro ⟨c, hc, hvc, hwc⟩
      have hconnected := (emitted_components g).connected c ((flatten_waves_perm g).mem_iff.mp hc)
      exact ⟨hconnected v hvc w hwc, hconnected w hwc v hvc⟩
    · rintro ⟨hvw, hwv⟩
      obtain ⟨c, hc, hvc⟩ := mem_flatten.mp
        ((components_flatten_perm g).mem_iff.mpr (mem_range.mpr hv))
      obtain ⟨i, hi⟩ := getElem?_of_mem hc
      exact ⟨c, (flatten_waves_perm g).mem_iff.mpr hc, hvc, same_component hi hvc hvw hwv⟩
  earlier _ _ hc _ hv _ hw hout := exists_earlier hg hc hv hw hout
  tight k c hc := by
    obtain ⟨i, hi, hlevel⟩ := mem_waves_iff.mp hc
    obtain ⟨v, hv, w, hw, j, d, hd, hwd, hlevel⟩ := exists_level_eq hg hi hlevel
    exact ⟨v, hv, w, hw, d, mem_waves_iff.mpr ⟨j, hd, hlevel⟩, hwd⟩
  ascending c hc := (emitted_components g).ascending c ((flatten_waves_perm g).mem_iff.mp hc)
  byFirst _ hwave := pairwise_startsBefore hwave

/-- A cycle of two vertices, which depends on a vertex with an edge to itself and which another
vertex depends on. -/
theorem waves_isOrderOf_cycle :
    (∀ v, ∀ w ∈ depsOf [[1, 2], [0], [2], [2, 1, 1]] v, w < 4) ∧
      waves [[1, 2], [0], [2], [2, 1, 1]] = [[[2]], [[0, 1]], [[3]]] ∧
      IsOrderOf [[1, 2], [0], [2], [2, 1, 1]] [[[2]], [[0, 1]], [[3]]] := by
  have hg : ∀ v, ∀ w ∈ depsOf [[1, 2], [0], [2], [2, 1, 1]] v, w < 4 := by
    intro v w hw
    match v with
    | 0 | 1 | 2 | 3 => revert w; decide
    | v + 4 => exact absurd hw not_mem_nil
  have hwaves : waves [[1, 2], [0], [2], [2, 1, 1]] = [[[2]], [[0, 1]], [[3]]] := by cbv
  exact ⟨hg, hwaves, hwaves ▸ waves_isOrderOf hg⟩

/-! ## One wave after the other -/

/-- Every component depends, outside itself, only on what was done before its wave. -/
def InOrder (g : Graph) (done : List Nat) : List (List (List Nat)) → Prop
  | [] => True
  | wave :: rest =>
    (∀ c ∈ wave, ∀ v ∈ c, ∀ w ∈ depsOf g v, w ∈ c ∨ w ∈ done) ∧
      InOrder g (wave.flatten ++ done) rest

theorem inOrder_of_earlier {ws : List (List (List Nat))} {done : List Nat}
    (h : ∀ k, ∀ c ∈ ws.getD k [], ∀ v ∈ c, ∀ w ∈ depsOf g v, w ∉ c →
      w ∈ done ∨ ∃ j < k, ∃ d ∈ ws.getD j [], w ∈ d) : InOrder g done ws := by
  induction ws generalizing done with
  | nil => trivial
  | cons wave ws ih =>
    refine ⟨fun c hc v hv w hw => ?_, ih fun k c hc v hv w hw hout => ?_⟩
    · refine or_iff_not_imp_left.mpr fun hout => (h 0 c hc v hv w hw hout).resolve_right ?_
      rintro ⟨j, hj, -⟩
      exact Nat.not_lt_zero j hj
    · rcases h (k + 1) c hc v hv w hw hout with hdone | ⟨j, hj, d, hd, hwd⟩
      · exact .inl (mem_append_right _ hdone)
      · cases j with
        | zero => exact .inl (mem_append_left _ (mem_flatten.mpr ⟨d, hd, hwd⟩))
        | succ j => exact .inr ⟨j, Nat.lt_of_succ_lt_succ hj, d, hd, hwd⟩

theorem inOrder_waves (hg : ∀ v, ∀ w ∈ depsOf g v, w < g.length) : InOrder g [] (waves g) :=
  inOrder_of_earlier fun _ _ hc _ hv _ hw hout => .inr (exists_earlier hg hc hv hw hout)

end RowTyping.Dependencies
