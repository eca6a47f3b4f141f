import Mathlib.Data.List.Nodup
import Mathlib.Data.Nat.Find
import RowTyping.Proofs.SortedList
import RowTyping.Signature

/-!
# Names of variables

The canonical names are different (`letterName_injective`), so however many names are taken, a
search for one that is left comes to an end (`exists_unused_letterName`). A signature keeps a
declared name that only one of its variables has and gives the other variables the canonical names
that are left, in order, so its variables have different names
(`Signature.get?_chooseNames_injective`). Its quantifiers are listed in three groups, with those of
requirements first (`Scheme.quantifiers_eq`).
-/

namespace RowTyping

open List

/-! ## Canonical names -/

namespace Signature

theorem le_nextUnused (used : List String) (next : Nat) : next ≤ nextUnused used next := by
  fun_induction nextUnused used next with
  | case1 next _ ih => omega
  | case2 next => exact Nat.le_refl next

/-- The search passes over no more names than are used. -/
theorem nextUnused_le (used : List String) (next : Nat) :
    nextUnused used next ≤ next + used.length := by
  suffices h : nextUnused used next ≤ next + (usedFrom used next).length from
    Nat.le_trans h (Nat.add_le_add_left (length_filter_le ..) next)
  fun_induction nextUnused used next with
  | case1 next hused ih =>
    have hlt := usedFrom_succ_lt hused
    omega
  | case2 next => exact Nat.le_add_right ..

theorem letterName_nextUnused_not_mem (used : List String) (next : Nat) :
    letterName (nextUnused used next) ∉ used := by
  fun_induction nextUnused used next with
  | case1 next _ ih => exact ih
  | case2 next hunused => exact hunused

/-- The search passes over used names only. -/
theorem mem_of_lt_nextUnused {used : List String} {next j : Nat} (hj : next ≤ j)
    (hlt : j < nextUnused used next) : letterName j ∈ used := by
  fun_induction nextUnused used next with
  | case1 next hused ih =>
    rcases Nat.eq_or_lt_of_le hj with rfl | hj
    · exact hused
    · exact ih hj hlt
  | case2 next => omega

end Signature

open Signature in
/-- Among one more canonical names than there are taken ones, one is left. -/
theorem exists_unused_letterName (used : List String) (next : Nat) :
    ∃ k, next ≤ k ∧ k ≤ next + used.length ∧ letterName k ∉ used ∧
      ∀ j, next ≤ j → j < k → letterName j ∈ used :=
  ⟨nextUnused used next, le_nextUnused used next, nextUnused_le used next,
    letterName_nextUnused_not_mem used next, fun _ => mem_of_lt_nextUnused⟩

namespace VarNames

theorem get?_insert (names : VarNames) (x y : Var) (name : String) :
    (names.insert x name).get? y = if y = x then some name else names.get? y := by
  cases x <;> cases y <;> simp [insert, get?]

private theorem get?_foldl_insert {xs : List Var} (hxs : xs.Nodup) (k : Nat) (names : VarNames)
    (x : Var) :
    ((xs.zipIdx k).foldl (fun names entry => names.insert entry.1 (letterName entry.2)) names).get?
      x =
      if x ∈ xs then some (letterName (k + xs.idxOf x)) else names.get? x := by
  induction xs generalizing k names with
  | nil => simp
  | cons y ys ih =>
    obtain ⟨hy, hys⟩ := nodup_cons.mp hxs
    rw [zipIdx_cons, foldl_cons, ih hys, get?_insert]
    by_cases hx : x = y
    · subst hx
      simp [hy]
    · have hidx : (y :: ys).idxOf x = ys.idxOf x + 1 := idxOf_cons_ne ys (Ne.symm hx)
      simp [hx, hidx, Nat.add_assoc, Nat.add_comm 1]

/-- The canonical name of a listed variable tells its place among the different ones. -/
theorem get?_canonical {xs : List Var} {x : Var} (hx : x ∈ xs) :
    (canonical xs).get? x = some (letterName ((distinct xs).idxOf x)) := by
  rw [canonical, get?_foldl_insert (nodup_distinct xs), if_pos (mem_distinct.mpr hx), Nat.zero_add]

end VarNames

/-! ## Names of a signature -/

namespace Signature

variable {order : List Var} {hints : VarNames} {kept : Var → Option String} {x : Var} {h : String}
  {used : List String} {next : Nat} {names : VarNames} {xs : List Var}

/-- A declared name is kept exactly if no other of the variables has it too. -/
theorem keptName?_eq_some_iff (horder : order.Nodup) (hx : x ∈ order) :
    keptName? order hints x = some h ↔
      hints.get? x = some h ∧ ∀ y ∈ order, hints.get? y = some h → y = x := by
  rw [keptName?, Option.filter_eq_some_iff, decide_eq_true_eq]
  refine and_congr_right fun hhint => ?_
  obtain ⟨before, after, rfl⟩ := append_of_mem hx
  obtain ⟨-, hafter, hbefore⟩ := nodup_append.mp horder
  have hcount : ((before ++ x :: after).filterMap hints.get?).count h =
      (before.filterMap hints.get?).count h + ((after.filterMap hints.get?).count h + 1) := by
    simp [filterMap_append, hhint, count_append]
  have hzero : ((before ++ x :: after).filterMap hints.get?).count h = 1 ↔
      h ∉ before.filterMap hints.get? ∧ h ∉ after.filterMap hints.get? := by
    rw [hcount, ← count_eq_zero, ← count_eq_zero]
    omega
  rw [hzero]
  simp only [mem_filterMap, mem_append, mem_cons]
  constructor
  · rintro ⟨hnone, hnone'⟩ y (hy | rfl | hy) hyh
    · exact absurd ⟨y, hy, hyh⟩ hnone
    · rfl
    · exact absurd ⟨y, hy, hyh⟩ hnone'
  · intro hsole
    refine ⟨?_, ?_⟩
    · rintro ⟨y, hy, hyh⟩
      exact hbefore y hy x (.head _) (hsole y (.inl hy) hyh)
    · rintro ⟨y, hy, hyh⟩
      exact (nodup_cons.mp hafter).1 (hsole y (.inr (.inr hy)) hyh ▸ hy)

theorem get?_assignNames_of_not_mem (hx : x ∉ xs) :
    (assignNames kept used xs next names).get? x = names.get? x := by
  induction xs generalizing next names with
  | nil => rfl
  | cons y ys ih =>
    have hne : x ≠ y := fun heq => hx (heq ▸ (.head _))
    have hys : x ∉ ys := fun hmem => hx (.tail _ hmem)
    simp only [assignNames]
    split <;> rw [ih hys, VarNames.get?_insert, if_neg hne]

/-- A kept name is given. -/
theorem get?_assignNames_of_kept (hxs : xs.Nodup) (hx : x ∈ xs) (hkept : kept x = some h) :
    (assignNames kept used xs next names).get? x = some h := by
  induction xs generalizing next names with
  | nil => cases hx
  | cons y ys ih =>
    obtain ⟨hy, hys⟩ := nodup_cons.mp hxs
    simp only [assignNames]
    rcases mem_cons.mp hx with rfl | hx
    · simp only [hkept]
      rw [get?_assignNames_of_not_mem hy, VarNames.get?_insert, if_pos rfl]
    · split <;> exact ih hys hx

/-- The variables without a kept name take the unused canonical names from an index on, in order. -/
theorem map_get?_assignNames (hxs : xs.Nodup) (next : Nat) (names : VarNames) :
    ∃ ks : List Nat, ks.Pairwise (· < ·) ∧ (∀ k ∈ ks, next ≤ k) ∧
      (xs.filter (kept · = none)).map (assignNames kept used xs next names).get? =
        ks.map (fun k => some (letterName k)) ∧
      ∀ k ∈ ks, letterName k ∉ used ∧ ∀ j < k, next ≤ j → j ∈ ks ∨ letterName j ∈ used := by
  induction xs generalizing next names with
  | nil => exact ⟨[], .nil, forall_mem_nil _, rfl, forall_mem_nil _⟩
  | cons y ys ih =>
    obtain ⟨hy, hys⟩ := nodup_cons.mp hxs
    rcases hkept : kept y with _ | h
    · have hfilter : (y :: ys).filter (kept · = none) = y :: ys.filter (kept · = none) := by
        simp [hkept]
      obtain ⟨ks, hsorted, hle, hmap, hks⟩ := ih hys (nextUnused used next + 1)
        (names.insert y (letterName (nextUnused used next)))
      refine ⟨nextUnused used next :: ks, pairwise_cons.mpr ⟨hle, hsorted⟩,
        forall_mem_cons.mpr ⟨le_nextUnused used next, fun k hk => ?_⟩, ?_,
        forall_mem_cons.mpr ⟨⟨letterName_nextUnused_not_mem used next,
          fun j hj hnext => ?_⟩, fun k hk =>
          ⟨(hks k hk).1, fun j hj hnext => ?_⟩⟩⟩
      · have := le_nextUnused used next
        have := hle k hk
        omega
      · simp only [hfilter, assignNames, hkept, map_cons]
        rw [get?_assignNames_of_not_mem hy, VarNames.get?_insert, if_pos rfl, hmap]
      · exact .inr (mem_of_lt_nextUnused hnext hj)
      · -- passed over, taken just now or left to the other variables
        rcases Nat.lt_trichotomy j (nextUnused used next) with hlt | rfl | hlt
        · exact .inr (mem_of_lt_nextUnused hnext hlt)
        · exact .inl (.head _)
        · exact ((hks k hk).2 j hj hlt).imp_left (.tail _)
    · have hfilter : (y :: ys).filter (kept · = none) = ys.filter (kept · = none) := by simp [hkept]
      simp only [assignNames, hkept, hfilter]
      exact ih hys next _

theorem get?_chooseNames_of_kept (horder : order.Nodup) (hx : x ∈ order)
    (hkept : keptName? order hints x = some h) :
    (chooseNames order hints).get? x = some h :=
  get?_assignNames_of_kept horder hx hkept

/-- The variables without a kept name take the first canonical names that are not kept names, in
order. -/
theorem map_get?_chooseNames (hints : VarNames) (horder : order.Nodup) :
    ∃ ks : List Nat, ks.Pairwise (· < ·) ∧
      (order.filter (keptName? order hints · = none)).map (chooseNames order hints).get? =
        ks.map (fun k => some (letterName k)) ∧
      ∀ k ∈ ks, letterName k ∉ order.filterMap (keptName? order hints) ∧
        ∀ j < k, j ∈ ks ∨ letterName j ∈ order.filterMap (keptName? order hints) := by
  obtain ⟨ks, hsorted, -, hmap, hks⟩ := map_get?_assignNames horder 0 {}
  exact ⟨ks, hsorted, hmap, fun k hk =>
    ⟨(hks k hk).1, fun j hj => (hks k hk).2 j hj (Nat.zero_le j)⟩⟩

/-- A variable without a kept name has a canonical name that is not one of the kept ones. -/
theorem get?_chooseNames_of_none (horder : order.Nodup) (hx : x ∈ order)
    (hnone : keptName? order hints x = none) :
    ∃ k, (chooseNames order hints).get? x = some (letterName k) ∧
      letterName k ∉ order.filterMap (keptName? order hints) := by
  obtain ⟨ks, -, hmap, hks⟩ := map_get?_chooseNames hints horder
  have hmem : (chooseNames order hints).get? x ∈
      (order.filter (keptName? order hints · = none)).map (chooseNames order hints).get? :=
    mem_map_of_mem (mem_filter.mpr ⟨hx, by simpa using hnone⟩)
  rw [hmap] at hmem
  obtain ⟨k, hk, hname⟩ := mem_map.mp hmem
  exact ⟨k, hname.symm, (hks k hk).1⟩

/-- Every variable has a name. -/
theorem exists_get?_chooseNames (horder : order.Nodup) (hx : x ∈ order) :
    ∃ name, (chooseNames order hints).get? x = some name := by
  rcases hkept : keptName? order hints x with _ | h
  · obtain ⟨k, hk, -⟩ := get?_chooseNames_of_none horder hx hkept
    exact ⟨_, hk⟩
  · exact ⟨h, get?_chooseNames_of_kept horder hx hkept⟩

theorem get?_chooseNames_ne_kept (horder : order.Nodup) (hx : x ∈ order)
    (hnone : keptName? order hints x = none)
    {y : Var} (hy : y ∈ order) (hkept : keptName? order hints y = some h) :
    (chooseNames order hints).get? x ≠ some h := by
  obtain ⟨k, hk, hunused⟩ := get?_chooseNames_of_none horder hx hnone
  rw [hk]
  rintro ⟨⟩
  exact hunused (mem_filterMap.mpr ⟨y, hy, hkept⟩)

/-- Different variables have different names. -/
theorem get?_chooseNames_injective (horder : order.Nodup) {y : Var} (hx : x ∈ order)
    (hy : y ∈ order)
    (hxy : (chooseNames order hints).get? x = (chooseNames order hints).get? y) : x = y := by
  rcases hkx : keptName? order hints x with _ | h <;> rcases hky :
    keptName? order hints y with _ | h'
  · obtain ⟨ks, hsorted, hmap, -⟩ := map_get?_chooseNames hints horder
    have hnodup : ((order.filter (keptName? order hints · = none)).map
        (chooseNames order hints).get?).Nodup := by
      rw [hmap]
      exact hsorted.nodup.map fun k k' h => letterName_injective (Option.some.inj h)
    exact inj_on_of_nodup_map hnodup (mem_filter.mpr ⟨hx, by simpa using hkx⟩)
      (mem_filter.mpr ⟨hy, by simpa using hky⟩) hxy
  · rw [get?_chooseNames_of_kept horder hy hky] at hxy
    exact absurd hxy (get?_chooseNames_ne_kept horder hx hkx hy hky)
  · rw [get?_chooseNames_of_kept horder hx hkx] at hxy
    exact absurd hxy.symm (get?_chooseNames_ne_kept horder hy hky hx hkx)
  · rw [get?_chooseNames_of_kept horder hx hkx, get?_chooseNames_of_kept horder hy hky] at hxy
    obtain ⟨-, hsole⟩ := (keptName?_eq_some_iff horder hy).mp hky
    obtain ⟨hhint, -⟩ := (keptName?_eq_some_iff horder hx).mp hkx
    exact hsole x hx (hxy ▸ hhint)

end Signature

/-! ## Quantifiers -/

section Distinct

variable {α : Type} [DecidableEq α]

theorem distinct_filter (p : α → Bool) (as : List α) :
    distinct (as.filter p) = (distinct as).filter p := by
  induction as with
  | nil => rfl
  | cons a as ih =>
    rcases hp : p a with _ | _
    · have hsame : ((distinct as).filter (· ≠ a)).filter p = (distinct as).filter p := by
        rw [filter_filter]
        refine filter_congr fun b _ => ?_
        rcases eq_or_ne b a with rfl | hb <;> simp [*]
      rw [filter_cons_of_neg (by simp [hp]), ih, distinct, filter_cons_of_neg (by simp [hp]), hsame]
    · rw [filter_cons_of_pos hp, distinct, distinct, filter_cons_of_pos hp, ih, filter_filter,
        filter_filter]
      simp only [Bool.and_comm]

/-- The first occurrences in two lists are those of the first one and the others of the second
one. -/
theorem distinct_append (as bs : List α) :
    distinct (as ++ bs) = distinct as ++ (distinct bs).filter fun b => !as.contains b := by
  induction as with
  | nil => simp [distinct]
  | cons a as ih =>
    rw [cons_append, distinct, distinct, ih, filter_append, filter_filter, cons_append]
    congr 2
    refine filter_congr fun b _ => ?_
    simp

/-- Listing some elements of the second list first groups its first occurrences. -/
theorem distinct_grouped (p : α → Bool) (as bs : List α) :
    let rest := (distinct bs).filter fun b => !(distinct as).contains b
    distinct (as ++ bs.filter p ++ bs) = distinct as ++ rest.filter p ++ rest.filter (!p ·) := by
  intro rest
  have hgroups : distinct (bs.filter p ++ bs) = (distinct bs).filter p ++
      (distinct bs).filter (!p ·) := by
    rw [distinct_append, distinct_filter]
    congr 1
    refine filter_congr fun b hb => ?_
    simp [mem_distinct.mp hb]
  have hrest : rest = (distinct bs).filter fun b => !as.contains b :=
    filter_congr fun b _ => by simp
  rw [append_assoc, distinct_append, hgroups, filter_append, append_assoc, hrest]
  simp only [filter_filter, Bool.and_comm]

end Distinct

namespace Scheme

variable {σ : Scheme} {x : Var}

/-- The scheme quantifies over the variable. -/
def Quantifies (σ : Scheme) : Var → Prop
  | .type v => v ∈ σ.typeVars
  | .effect e => e ∈ σ.effectVars

instance (σ : Scheme) : DecidablePred σ.Quantifies
  | .type v => inferInstanceAs (Decidable (v ∈ σ.typeVars))
  | .effect e => inferInstanceAs (Decidable (e ∈ σ.effectVars))

/-- The quantified variables of requirements, in order of first use. -/
def required (σ : Scheme) : List Var :=
  distinct ((σ.givens.flatMap (·.type.vars)).filter (σ.quantified.contains ·))

/-- The other quantified variables: those of the type in order of first use, then those that it does
not have in order of their ids. -/
def unrequired (σ : Scheme) : List Var :=
  (distinct ((σ.type.vars ++ σ.quantified).filter (σ.quantified.contains ·))).filter
    fun x => !σ.required.contains x

theorem mem_quantified : x ∈ σ.quantified ↔ σ.Quantifies x := by
  cases x <;> simp [quantified, Quantifies]

/-- The quantifiers are the variables of requirements, then effect variables, then type
variables. -/
theorem quantifiers_eq (σ : Scheme) : σ.quantifiers =
    σ.required ++ σ.unrequired.filter (·.isEffect) ++ σ.unrequired.filter (!·.isEffect) := by
  have hfilter (required others : List Var) (p : Var → Bool) :
      (required ++ others.filter Var.isEffect ++ others).filter p =
        required.filter p ++ (others.filter p).filter Var.isEffect ++ others.filter p := by
    simp only [filter_append, filter_filter, Bool.and_comm]
  rw [quantifiers, hfilter, distinct_grouped, required, unrequired]
  rfl

theorem mem_quantifiers : x ∈ σ.quantifiers ↔ x ∈ σ.quantified := by
  simp only [quantifiers, mem_distinct, mem_filter, mem_append, contains_eq_mem,
    decide_eq_true_eq]
  exact ⟨fun h => h.2, fun h => ⟨.inr (.inr h), h⟩⟩

theorem mem_namedVars : x ∈ σ.namedVars ↔ x ∈ σ.type.occurrences ∨ x ∈ σ.quantifiers := by
  simp [namedVars, Ty.vars]

end Scheme

/-- A signature lists every quantified variable once: those of requirements in order of first use,
then the other effect variables, then the other type variables. All variables of its type and all
quantifiers have names, and different ones different names. A declared name is kept exactly if only
one of these variables has it. The others take the first canonical names that are not kept ones, in
order, and the search for each of them ends, whatever names are taken. -/
theorem Signature.quantifiers_and_names (name : String) (σ : Scheme) (span : Span) :
    let sig := ofScheme name σ span
    (sig.quantifiers.Nodup ∧ (∀ x, x ∈ sig.quantifiers ↔ σ.Quantifies x) ∧
      sig.quantifiers =
        σ.required ++ σ.unrequired.filter (·.isEffect) ++ σ.unrequired.filter (!·.isEffect)) ∧
    (∀ x, x ∈ σ.namedVars ↔ x ∈ σ.type.occurrences ∨ x ∈ sig.quantifiers) ∧
    (∀ x ∈ σ.namedVars, ∃ n, sig.names.get? x = some n) ∧
    (∀ x ∈ σ.namedVars, ∀ y ∈ σ.namedVars, sig.names.get? x = sig.names.get? y → x = y) ∧
    (∀ x ∈ σ.namedVars, ∀ h,
      (keptName? σ.namedVars σ.names x = some h ↔
        σ.names.get? x = some h ∧ ∀ y ∈ σ.namedVars, σ.names.get? y = some h → y = x) ∧
      (keptName? σ.namedVars σ.names x = some h → sig.names.get? x = some h)) ∧
    (∃ ks : List Nat, ks.Pairwise (· < ·) ∧
      (σ.namedVars.filter (keptName? σ.namedVars σ.names · = none)).map sig.names.get? =
        ks.map (fun k => some (letterName k)) ∧
      ∀ k ∈ ks, letterName k ∉ σ.namedVars.filterMap (keptName? σ.namedVars σ.names) ∧
        ∀ j < k, j ∈ ks ∨ letterName j ∈ σ.namedVars.filterMap (keptName? σ.namedVars σ.names)) ∧
    ∀ (used : List String) (next : Nat), ∃ k, next ≤ k ∧ k ≤ next + used.length ∧
      letterName k ∉ used ∧ ∀ j, next ≤ j → j < k → letterName j ∈ used := by
  have hnodup : σ.namedVars.Nodup := nodup_distinct _
  exact ⟨⟨nodup_distinct _, fun x => Scheme.mem_quantifiers.trans Scheme.mem_quantified,
    σ.quantifiers_eq⟩,
    fun x => Scheme.mem_namedVars, fun x hx => exists_get?_chooseNames hnodup hx,
    fun x hx y hy hxy => get?_chooseNames_injective hnodup hx hy hxy,
    fun x hx h => ⟨keptName?_eq_some_iff hnodup hx, get?_chooseNames_of_kept hnodup hx⟩,
    map_get?_chooseNames _ hnodup, exists_unused_letterName⟩

end RowTyping
