import Mathlib.Logic.Equiv.Basic
import RowTyping.Proofs.Lockstep.Unify

/-!
# Renaming variables

A one-to-one change of variables is a matching of all variables, and types match if the second one
is the first one renamed (`Renaming.eq_rename_of_types`).

Where one side keeps a tail, the other one may replace its tail by just another tail. Rows that are
sorted come out the same in both ways, so for them it is enough that tails stand for matching rows
(`Matching.Resolved`).
-/

namespace RowTyping

open List

/-! ## Renaming variables -/

/-- A one-to-one change of variables. -/
structure Renaming where
  /-- The new type variable. -/
  types : Equiv.Perm TypeVar
  /-- The new effect variable. -/
  effects : Equiv.Perm EffectVar

/-- The row with its tail renamed. -/
def Row.rename (ρ : Renaming) (r : Row) : Row :=
  { r with tail := r.tail.map ρ.effects }

namespace Ty

mutual

/-- The type with all its variables renamed. -/
def rename (ρ : Renaming) : Ty → Ty
  | .prim p => .prim p
  | .var v => .var (ρ.types v)
  | .named name args => .named name (renameAll ρ args)
  | .app head args => .app (rename ρ head) (renameAll ρ args)
  | .fn params result effects => .fn (renameAll ρ params) (rename ρ result) (effects.rename ρ)
  | .tuple elems => .tuple (renameAll ρ elems)

/-- The types with all their variables renamed. -/
def renameAll (ρ : Renaming) : List Ty → List Ty
  | [] => []
  | t :: ts => rename ρ t :: renameAll ρ ts

end

end Ty

namespace Renaming

/-- A variable matches the one it is renamed to. -/
def matching (ρ : Renaming) : Matching where
  types v v' := ρ.types v = v'
  effects e e' := ρ.effects e = e'
  biUnique_types :=
    ⟨fun _ _ _ h h' => ρ.types.injective (h.trans h'.symm), fun _ _ _ h h' => h.symm.trans h'⟩
  biUnique_effects :=
    ⟨fun _ _ _ h h' => ρ.effects.injective (h.trans h'.symm), fun _ _ _ h h' => h.symm.trans h'⟩

variable {ρ : Renaming}

theorem eq_rename_of_rows {r r' : Row} (h : ρ.matching.Rows r r') : r' = r.rename ρ := by
  cases h with
  | closed labels => rfl
  | extended labels he => exact congrArg (fun e => (⟨labels, some e⟩ : Row)) he.symm

mutual

/-- Types match exactly if the second one is the first one renamed. -/
theorem eq_rename_of_types {t t' : Ty} : ρ.matching.Types t t' → t' = t.rename ρ
  | .prim _ => rfl
  | .var hv => congrArg Ty.var hv.symm
  | .named _ hargs => by rw [Ty.rename, ← eq_renameAll_of_types hargs]
  | .app hhead hargs => by rw [Ty.rename, ← eq_rename_of_types hhead, ← eq_renameAll_of_types hargs]
  | .fn hparams hresult heffects => by
    rw [Ty.rename, ← eq_renameAll_of_types hparams, ← eq_rename_of_types
      hresult, ← eq_rename_of_rows heffects]
  | .tuple helems => by rw [Ty.rename, ← eq_renameAll_of_types helems]

theorem eq_renameAll_of_types {ts ts' : List Ty} :
    Forall₂ ρ.matching.Types ts ts' → ts' = Ty.renameAll ρ ts
  | .nil => rfl
  | .cons ht hts => by rw [Ty.renameAll, ← eq_rename_of_types ht, ← eq_renameAll_of_types hts]

end

/-- The renaming that changes nothing. -/
protected def id : Renaming := ⟨.refl _, .refl _⟩

theorem types_id (t : Ty) : Renaming.id.matching.Types t t :=
  Matching.types_refl fun x _ => by
    cases x with
    | type v => exact .type rfl
    | effect e => exact .effect rfl

theorem rows_id (r : Row) : Renaming.id.matching.Rows r r := by
  obtain ⟨labels, _ | e⟩ := r
  · exact .closed labels
  · exact .extended labels rfl

theorem equations_id (eq : Equation) : Renaming.id.matching.Equations eq eq := by
  cases eq with
  | types a b => exact .types (types_id a) (types_id b)
  | rows a b => exact .rows (rows_id a) (rows_id b)

/-- Exchange two type variables first. -/
def swapTypes (ρ : Renaming) (v w : TypeVar) : Renaming :=
  { ρ with types := (Equiv.swap v w).trans ρ.types }

theorem swapTypes_of_ne {u v w : TypeVar} (hv : u ≠ v) (hw : u ≠ w) :
    (ρ.swapTypes v w).types u = ρ.types u :=
  congrArg ρ.types (Equiv.swap_apply_of_ne_of_ne hv hw)

@[simp]
theorem swapTypes_left (ρ : Renaming) (v w : TypeVar) : (ρ.swapTypes v w).types v = ρ.types w :=
  congrArg ρ.types (Equiv.swap_apply_left v w)

@[simp]
theorem swapTypes_right (ρ : Renaming) (v w : TypeVar) : (ρ.swapTypes v w).types w = ρ.types v :=
  congrArg ρ.types (Equiv.swap_apply_right v w)

/-- Exchange two effect variables first. -/
def swapEffects (ρ : Renaming) (e f : EffectVar) : Renaming :=
  { ρ with effects := (Equiv.swap e f).trans ρ.effects }

theorem swapEffects_of_ne {e f g : EffectVar} (he : g ≠ e) (hf : g ≠ f) :
    (ρ.swapEffects e f).effects g = ρ.effects g :=
  congrArg ρ.effects (Equiv.swap_apply_of_ne_of_ne he hf)

@[simp]
theorem swapEffects_left (ρ : Renaming) (e f : EffectVar) :
    (ρ.swapEffects e f).effects e = ρ.effects f :=
  congrArg ρ.effects (Equiv.swap_apply_left e f)

@[simp]
theorem swapEffects_right (ρ : Renaming) (e f : EffectVar) :
    (ρ.swapEffects e f).effects f = ρ.effects e :=
  congrArg ρ.effects (Equiv.swap_apply_right e f)

end Renaming

/-! ## Replacing variables in sorted rows -/

/-- The valuation with a row for every effect variable. -/
def Valuation.explicit (V : Valuation) : Valuation :=
  ⟨V.types, fun e => some (V.row e)⟩

theorem Valuation.sameAt_explicit (V : Valuation) (x : Var) : V.SameAt V.explicit x := by
  cases x with
  | type v => rfl
  | effect e =>
    have hsorted : Sorted.ofList (V.row e).labels = (V.row e).labels := (V.isSorted_row e).ofList_eq
    change V.row e = V.explicit.row e
    rw [Valuation.row_of_some (V := V.explicit) rfl, hsorted]

namespace Matching

variable {ρ ρ' : Matching} {V V' : Valuation} {Q : Var → Prop}

/-- Variables that match by `ρ` stand for types and rows that match by `ρ'`. -/
structure Resolved (ρ ρ' : Matching) (V V' : Valuation) : Prop where
  types : ∀ {v v'}, ρ.types v v' → ρ'.Types (V.types v) (V'.types v')
  rows : ∀ {e e'}, ρ.effects e e' → ρ'.Rows (V.row e) (V'.row e')

theorem Resolved.explicit (h : ρ.Resolved ρ' V V') : ρ.Valuations ρ' V.explicit V'.explicit :=
  ⟨h.types, fun he => .replaced (h.rows he)⟩

theorem Resolved.types_under (h : ρ.Resolved ρ' V V') {t t' : Ty} (ht : ρ.Types t t')
    (hsorted : t.RowsSorted) (hsorted' : t'.RowsSorted) : ρ'.Types (t.under V) (t'.under V') := by
  rw [hsorted.under_congr fun x _ => V.sameAt_explicit x,
    hsorted'.under_congr fun x _ => V'.sameAt_explicit x]
  exact ht.under h.explicit

theorem Resolved.rows_under (h : ρ.Resolved ρ' V V') {r r' : Row} (hr : ρ.Rows r r')
    (hsorted : r.IsSorted) (hsorted' : r'.IsSorted) : ρ'.Rows (r.under V) (r'.under V') := by
  rw [hsorted.under_congr fun e _ => V.sameAt_explicit (.effect e),
    hsorted'.under_congr fun e _ => V'.sameAt_explicit (.effect e)]
  exact hr.under h.explicit

theorem Resolved.equations_under (h : ρ.Resolved ρ' V V') {eq eq' : Equation}
    (heq : ρ.Equations eq eq') (hsorted : eq.RowsSorted) (hsorted' : eq'.RowsSorted) :
    ρ'.Equations (eq.under V) (eq'.under V') := by
  cases heq with
  | types ha hb =>
    exact .types
      (h.types_under ha (fun r hr => hsorted r (mem_append_left _ hr))
        fun r hr => hsorted' r (mem_append_left _ hr))
      (h.types_under hb (fun r hr => hsorted r (mem_append_right _ hr))
        fun r hr => hsorted' r (mem_append_right _ hr))
  | rows ha hb =>
    have hsides {a b : Row} (h : (Equation.rows a b).RowsSorted) : a.IsSorted ∧ b.IsSorted := by
      simpa [Equation.RowsSorted, Equation.rowsOf] using h
    exact .rows (h.rows_under ha (hsides hsorted).1 (hsides hsorted').1)
      (h.rows_under hb (hsides hsorted).2 (hsides hsorted').2)

theorem Vars.restrict {x x' : Var} (h : ρ.Vars x x') (hx : Q x) : (ρ.restrict Q).Vars x x' := by
  cases h with
  | type hv => exact .type ⟨hx, hv⟩
  | effect he => exact .effect ⟨hx, he⟩

theorem rows_ofVar {e e' : EffectVar} (h : ρ.effects e e') : ρ.Rows (.ofVar e) (.ofVar e') :=
  .extended [] h

theorem Types.restrict_of {t t' : Ty} (h : ρ.Types t t') (hQ : ∀ x ∈ t.occurrences, Q x) :
    (ρ.restrict Q).Types t t' :=
  h.mono fun x hx {_} hxx' => hxx'.restrict (hQ x hx)

theorem Rows.restrict_of {r r' : Row} (h : ρ.Rows r r')
    (hQ : ∀ e, r.tail = some e → Q (.effect e)) :
    (ρ.restrict Q).Rows r r' := by
  cases h with
  | closed labels => exact .closed labels
  | extended labels he => exact .extended labels ⟨hQ _ rfl, he⟩

theorem Equations.restrict_of {eq eq' : Equation} (h : ρ.Equations eq eq')
    (hQ : ∀ x ∈ eq.occurrences, Q x) : (ρ.restrict Q).Equations eq eq' := by
  cases h with
  | types ha hb =>
    exact .types (ha.restrict_of fun x hx => hQ x (mem_append_left _ hx))
      (hb.restrict_of fun x hx => hQ x (mem_append_right _ hx))
  | rows ha hb =>
    exact .rows (ha.restrict_of fun e he => hQ _ (by simp [Equation.occurrences, he]))
      (hb.restrict_of fun e he => hQ _ (by simp [Equation.occurrences, he]))

end Matching

end RowTyping
