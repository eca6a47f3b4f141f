import RowTyping.Proofs.Lockstep.Unify
import RowTyping.Proofs.Unify.Solves
import RowTyping.Workload

/-!
# The generated pair of types unifies

Unification of `Workload.unifyPair n` works its way down through the results and binds the
parameters on the way (`solves_descend`); the rows wait and become pure on the way back
(`solves_ascend`). What is found is therefore known at every depth (`unifyPair_unifies`).
-/

namespace RowTyping

open List

namespace Unify

variable {s s' : Subst} {a b : Ty} {rest : List Equation} {f f' : Fresh}

private theorem solves_record {event : UnifyEvent} {eqs eqs' : List Equation} {s₁ : Subst}
    (heq : solve s eqs = do record event; solve s₁ eqs') (h : Solves s₁ eqs' f s' f') :
    Solves s eqs f s' f' := by
  intro u hu
  rw [heq]
  exact h (u.note event) ((u.fresh_note event).trans hu)

theorem Solves.bind {v : TypeVar} {t : Ty} (hne : a ≠ b) (hbinding : binding? a b = some (v, t))
    (hv : v ∉ t.typeOccurrences)
    (h : Solves (s.bindType v t) (Equation.replaceAll v t rest) f s' f') :
    Solves s (.types a b :: rest) f s' f' :=
  solves_record (by rw [solve_types hne, hbinding]; exact if_neg hv) h

theorem Solves.decompose {shape : Shape} {parts : List Equation} (hne : a ≠ b)
    (hbinding : binding? a b = none) (hparts : Equation.decompose? a b = some (shape, parts))
    (h : Solves s (parts ++ rest) f s' f') : Solves s (.types a b :: rest) f s' f' :=
  solves_record (by rw [solve_types hne, hbinding, hparts]) h

/-- A row that is just a variable becomes pure against the pure row. -/
theorem Solves.pureRow {e : EffectVar} (h : Solves (s.bindEffect e .pure)
      (Equation.resolveAllRows (s.bindEffect e .pure) rest) f s' f') :
    Solves s (.rows (.ofVar e) .pure :: rest) f s' f' := by
  intro u hu
  rw [solve, solveRows, if_neg (by simp [Row.ofVar, Row.pure])]
  exact h ((u.note _).note _) (((u.note _).fresh_note _).trans ((u.fresh_note _).trans hu))

end Unify

namespace Workload

open Unify

/-! ## Bindings of many variables -/

section Fill

variable {κ α : Type} [Ord κ] {key : Nat → κ}

/-- Store one value under many keys, from left to right. -/
def fill (key : Nat → κ) (a : α) (is : List Nat) (d : Dict κ α) : Dict κ α :=
  is.foldl (fun d i => d.insert (key i) a) d

variable [DecidableEq κ] [Std.LawfulEqOrd κ] (hkey : Function.Injective key)

include hkey

theorem get?_fill (a : α) (is : List Nat) (d : Dict κ α) (j : Nat) :
    (fill key a is d).get? (key j) = if j ∈ is then some a else d.get? (key j) := by
  induction is generalizing d with
  | nil => rfl
  | cons i is ih =>
    rw [fill, foldl_cons, ← fill, ih, Dict.get?_insert]
    simp only [hkey.eq_iff, mem_cons]
    grind

theorem size_fill [Std.TransOrd κ] (a : α) {is : List Nat} (his : is.Nodup) {d : Dict κ α}
    (hd : d.Ordered) (hnew : ∀ i ∈ is, d.get? (key i) = none) :
    (fill key a is d).Ordered ∧ (fill key a is d).size = d.size + is.length := by
  induction is generalizing d with
  | nil => exact ⟨hd, rfl⟩
  | cons i is ih =>
    obtain ⟨hi, his⟩ := nodup_cons.mp his
    obtain ⟨hni, hnew⟩ := forall_mem_cons.mp hnew
    have hrest := ih his (hd.insert (key i) a) fun j hj => by
      rw [Dict.get?_insert, if_neg (hkey.ne (ne_of_mem_of_not_mem hj hi)), hnew j hj]
    rw [hd.size_insert, hni] at hrest
    refine ⟨hrest.1, hrest.2.trans ?_⟩
    simp only [Option.isSome_none, Bool.false_eq_true, ↓reduceIte, length_cons]
    omega

end Fill

/-! ## The two types -/

/-- The type of optional numbers. -/
def maybeInt : Ty := .named "Maybe" [.int]

theorem not_mem_maybeInt (v : TypeVar) : v ∉ maybeInt.typeOccurrences :=
  not_mem_nil

section Types

variable {σ : TypeVar → Ty} {ρ : EffectVar → Option Row} {k : Nat}

theorem subst_openFunction (hσ : ∀ i < k, σ ⟨i⟩ = .var ⟨i⟩) (hρ : ∀ i < k, ρ ⟨i⟩ = none) :
    (openFunction k).subst σ ρ = openFunction k := by
  induction k with
  | zero => rfl
  | succ k ih =>
    simp [openFunction, Ty.subst, Ty.substAll, Row.subst, Row.ofVar, hσ k (by omega),
      hρ k (by omega),
      ih (fun i _ => hσ i (by omega)) fun i _ => hρ i (by omega)]

theorem subst_openFunction_solved (hσ : ∀ i < k, σ ⟨i⟩ = maybeInt)
    (hρ : ∀ i < k, ρ ⟨i⟩ = some .pure) :
    (openFunction k).subst σ ρ = pureFunction .int k := by
  induction k with
  | zero => rfl
  | succ k ih =>
    simp only [openFunction, Ty.subst, Ty.substAll, hσ k (by omega), Row.subst, Row.ofVar,
      hρ k (by omega),
      ih (fun i _ => hσ i (by omega)) fun i _ => hρ i (by omega)]
    rfl

theorem subst_pureFunction (last : Ty) :
    (pureFunction last k).subst σ ρ = pureFunction (last.subst σ ρ) k := by
  induction k with
  | zero => rfl
  | succ k ih => simp [pureFunction, Ty.subst, Ty.substAll, Row.subst, Row.pure, ih]

end Types

/-! ## Down through the results and back through the rows -/

/-- The equations between the rows of consecutive levels. -/
def rowEquations (first count : Nat) : List Equation :=
  (List.range' first count).map fun i => .rows (.ofVar ⟨i⟩) .pure

theorem rowEquations_succ (first count : Nat) :
    rowEquations first (count + 1) = .rows (.ofVar ⟨first⟩) .pure ::
      rowEquations (first + 1) count := by
  rw [rowEquations, rowEquations, range'_succ, map_cons]

theorem map_rowEquations {σ : TypeVar → Ty} {ρ : EffectVar → Option Row} {first : Nat}
    (hρ : ∀ i, first ≤ i → ρ ⟨i⟩ = none) (count : Nat) :
    (rowEquations first count).map (Equation.subst σ ρ) = rowEquations first count := by
  rw [rowEquations, map_map]
  refine map_congr_left fun i hi => ?_
  simp [Equation.subst, Row.subst, Row.ofVar, Row.pure, hρ i (mem_range'_1.mp hi).1]

/-- Below level `k` the parameters are bound from the outside in, and the last result after them.
The rows of the levels above wait. -/
theorem solves_descend {n k : Nat} (hk : k ≤ n) (types : Dict TypeVar Ty) {s' : Subst} {f : Fresh}
    (h : Solves { types := (fill .mk maybeInt (List.range k).reverse types).insert ⟨n⟩ .int }
      (rowEquations 0 n) f s' f) :
    Solves { types } (.types (openFunction k) (pureFunction (.var ⟨n⟩) k) :: rowEquations k (n - k))
      f s' f := by
  induction k generalizing types with
  | zero =>
    refine .bind (v := ⟨n⟩) (t := .int) (by simp [openFunction, pureFunction]) rfl not_mem_nil ?_
    rw [Equation.replaceAll, Equation.replace, map_rowEquations fun _ _ => rfl]
    exact h
  | succ k ih =>
    refine .decompose (by simp [openFunction, pureFunction, Row.ofVar, Row.pure]) rfl rfl ?_
    refine .bind (v := ⟨k⟩) (t := maybeInt) (by simp) rfl (not_mem_maybeInt _) ?_
    -- the parameter occurs in none of the equations that are left
    have hleft : Equation.replace ⟨k⟩ maybeInt
      (.types (openFunction k) (pureFunction (.var ⟨n⟩) k)) =
        .types (openFunction k) (pureFunction (.var ⟨n⟩) k) := by
      refine congrArg₂ Equation.types ?_ ?_
      · exact subst_openFunction (fun i hi => if_neg (by simp; omega)) fun _ _ => rfl
      · rw [subst_pureFunction, Ty.subst, if_neg (by simp; omega)]
    have hrange : n - k = n - (k + 1) + 1 := by omega
    change Solves _ (Equation.replace _ _ _ :: Equation.replaceAll _ _ (_ :: rowEquations _ _))
      _ _ _
    rw [hleft, ← rowEquations_succ, ← hrange, Equation.replaceAll, Equation.replace,
      map_rowEquations fun _ _ => rfl]
    refine ih (by omega) _ ?_
    rwa [range_succ, reverse_append] at h

/-- The rows become pure from the inside out. -/
theorem solves_ascend (types : Dict TypeVar Ty) (k count : Nat) (f : Fresh)
    {effects : Dict EffectVar Row} (hnew : ∀ i, k ≤ i → effects.get? ⟨i⟩ = none) :
    Solves { types, effects } (rowEquations k count) f
      { types, effects := fill .mk .pure (List.range' k count) effects } f := by
  induction count generalizing k effects with
  | zero => exact fun u hu => ⟨u, by rw [rowEquations, range'_zero, map_nil, solve]; rfl, hu⟩
  | succ count ih =>
    have hnew' (i : Nat) (hi : k + 1 ≤ i) : (effects.insert ⟨k⟩ .pure).get? ⟨i⟩ = none := by
      rw [Dict.get?_insert, if_neg (by simp; omega), hnew i (by omega)]
    rw [rowEquations_succ, range'_succ]
    refine .pureRow ?_
    rw [Equation.resolveAllRows, Equation.resolveRows, map_rowEquations fun i hi =>
      Subst.resolveEffect_of_unbound (hnew' i hi) _]
    exact ih (k + 1) hnew'

/-! ## The solution -/

/-- The bindings that are found at depth `n`. -/
def solution (n : Nat) : Subst where
  types := (fill .mk maybeInt (List.range n).reverse .empty).insert ⟨n⟩ .int
  effects := fill .mk .pure (List.range' 0 n) .empty

private theorem injective_typeVar : Function.Injective TypeVar.mk := fun _ _ => TypeVar.mk.inj

private theorem injective_effectVar : Function.Injective EffectVar.mk := fun _ _ => EffectVar.mk.inj

theorem get?_types_solution (n i : Nat) :
    (solution n).types.get? ⟨i⟩ = if i < n then some maybeInt else if i = n then some .int
      else none := by
  rw [solution, Dict.get?_insert, get?_fill injective_typeVar, Dict.get?_empty]
  grind

theorem get?_effects_solution (n i : Nat) :
    (solution n).effects.get? ⟨i⟩ = if i < n then some .pure else none := by
  rw [solution, get?_fill injective_effectVar, Dict.get?_empty]
  grind

theorem size_solution (n : Nat) :
    (solution n).types.size = n + 1 ∧ (solution n).effects.size = n := by
  have htypes := size_fill injective_typeVar maybeInt (nodup_reverse.mpr (nodup_range (n := n)))
    Dict.ordered_empty fun _ _ => rfl
  have heffects := size_fill injective_effectVar Row.pure (nodup_range' (s := 0) (n := n))
    Dict.ordered_empty fun _ _ => rfl
  have hlast : (fill TypeVar.mk maybeInt (List.range n).reverse .empty).get? ⟨n⟩ = none := by
    rw [get?_fill injective_typeVar, Dict.get?_empty]
    simp
  rw [solution, htypes.1.size_insert, hlast, htypes.2, heffects.2]
  simp [Dict.size, Dict.empty]

/-- Unification of the generated pair succeeds at every depth and draws nothing. It binds the
parameters `t_0, …, t_(n-1)` to `Maybe Int`, the last result `t_n` to `Int` and the rows `e_0, …,
e_(n-1)` to the pure row, and nothing else. Either type becomes the pure function of `n` optional
numbers that returns a number. -/
theorem unifyPair_unifies (n : Nat) (u : Unifier) :
    ∃ s u', Unify.types .empty (unifyPair n).1 (unifyPair n).2 u = .ok s u' ∧ u'.fresh = u.fresh ∧
      s.size = 2 * n + 1 ∧
      (∀ i, s.types.get? ⟨i⟩ = if i < n then some maybeInt else if i = n then some .int else none) ∧
      (∀ i, s.effects.get? ⟨i⟩ = if i < n then some .pure else none) ∧
      s.apply (unifyPair n).1 = pureFunction .int n ∧
      s.apply (unifyPair n).2 = pureFunction .int n := by
  have hleft : Subst.empty.apply (openFunction n) = openFunction n :=
    subst_openFunction (fun _ _ => rfl) fun _ _ => rfl
  have hright : Subst.empty.apply (pureFunction (.var ⟨n⟩) n) = pureFunction (.var ⟨n⟩) n :=
    subst_pureFunction _
  obtain ⟨u', hok, hfresh⟩ := solves_descend (Nat.le_refl n) .empty
    (solves_ascend _ 0 n u.fresh fun _ _ => rfl) u rfl
  rw [Nat.sub_self] at hok
  obtain ⟨htypes, heffects⟩ := size_solution n
  refine ⟨solution n, u', ?_, hfresh, ?_, get?_types_solution n, get?_effects_solution n, ?_, ?_⟩
  · rw [Unify.types, unifyPair, hleft, hright]
    exact hok
  · rw [Subst.size, htypes, heffects]
    omega
  · rw [Subst.apply, htypes, heffects]
    refine subst_openFunction_solved (fun i hi => ?_) fun i hi => ?_
    · rw [Subst.resolveType, get?_types_solution, if_pos hi]
      rfl
    · obtain ⟨m, rfl⟩ := Nat.exists_eq_succ_of_ne_zero (Nat.ne_zero_of_lt hi)
      rw [Subst.resolveEffect, get?_effects_solution, if_pos hi]
      rfl
  · rw [Subst.apply, unifyPair, subst_pureFunction, Ty.subst, htypes, Subst.resolveType,
      get?_types_solution,
      if_neg (Nat.lt_irrefl n), if_pos rfl]
    rfl

end Workload

end RowTyping
