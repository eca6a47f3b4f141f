import Mathlib
import RowTyping.Proofs.Lockstep.Renaming
import RowTyping.Proofs.Unify.Solves

/-!
# Unification does not depend on the order of its sides

Exchanging the sides of all equations makes unification bind the other one of two variables, or the
other one of two tails. From then on the two runs work on types that differ by exchanging the two.
So the runs stay mirror images of each other up to a renaming that changes with these steps
(`Unify.Mirror`), they end in the same way (`Unify.solve_mirror`), and the substitutions they find
are renamings of each other.
-/

namespace RowTyping

open List

/-! ## Exchanging the sides of an equation -/

namespace Equation

/-- The equation with its sides exchanged. -/
def swap : Equation → Equation
  | .types a b => .types b a
  | .rows a b => .rows b a

theorem swap_under (eq : Equation) (V : Valuation) : (eq.under V).swap = eq.swap.under V := by
  cases eq <;> rfl

theorem mem_occurrences_swap {eq : Equation} {x : Var} :
    x ∈ eq.swap.occurrences ↔ x ∈ eq.occurrences := by
  cases eq <;> simp only [swap, occurrences, mem_append, or_comm]

theorem RowsSorted.swap {eq : Equation} (h : eq.RowsSorted) : eq.swap.RowsSorted := by
  cases eq with
  | types a b => exact fun r hr => h r (by simpa [rowsOf, or_comm, Equation.swap] using hr)
  | rows a b => exact fun r hr => h r (by simpa [rowsOf, or_comm, Equation.swap] using hr)

theorem map_swap_zip (as bs : List Ty) : (zip as bs).map swap = zip bs as := by
  induction as generalizing bs with
  | nil => cases bs <;> rfl
  | cons a as ih =>
    cases bs with
    | nil => rfl
    | cons b bs => exact congrArg (Equation.types b a :: ·) (ih bs)

/-- Types are taken apart into the same parts from either side. -/
theorem decompose?_swap (a b : Ty) :
    Option.Rel (fun d d' => d.2.map swap = d'.2) (decompose? a b) (decompose? b a) := by
  cases a with
  | prim | var => cases b <;> exact .none
  | named n as =>
    cases b with
    | named m bs =>
      simp only [decompose?, eq_comm (a := m), eq_comm (a := bs.length)]
      split
      · exact .some (map_swap_zip as bs)
      · exact .none
    | app g bs =>
      simp only [decompose?]
      split
      · exact .some (congrArg _ (map_swap_zip _ bs))
      · exact .none
    | _ => exact .none
  | app f as =>
    cases b with
    | named m bs =>
      simp only [decompose?]
      split
      · exact .some (congrArg _ (map_swap_zip as _))
      · exact .none
    | app g bs =>
      simp only [decompose?]
      rcases Nat.lt_trichotomy as.length bs.length with h | h | h
      · rw [if_pos (Nat.le_of_lt h), if_neg (Nat.not_le.mpr h)]
        exact .some (congrArg _ (map_swap_zip as _))
      -- lists of one length leave nothing for the heads to take
      · rw [if_pos (Nat.le_of_eq h), if_pos (Nat.le_of_eq h.symm), h, Nat.sub_self]
        exact .some (congrArg _ (map_swap_zip as bs))
      · rw [if_neg (Nat.not_le.mpr h), if_pos (Nat.le_of_lt h)]
        exact .some (congrArg _ (map_swap_zip _ bs))
    | _ => exact .none
  | fn ps p e =>
    cases b with
    | fn qs q f =>
      simp only [decompose?, eq_comm (a := qs.length)]
      split
      · refine .some ?_
        rw [map_append, map_swap_zip]
        rfl
      · exact .none
    | _ => exact .none
  | tuple as =>
    cases b with
    | tuple bs =>
      simp only [decompose?, eq_comm (a := bs.length)]
      split
      · exact .some (map_swap_zip as bs)
      · exact .none
    | _ => exact .none

end Equation

namespace Unify

open Matching

variable {ρ ρ₁ : Renaming} {s s' s₁ s₁' : Subst} {rest rest' : List Equation} {f f' f₁ f₁' : Fresh}
  {a b a' b' : Ty} {v : TypeVar}

/-- A binding has the same sides as the one with exchanged sides, unless it is between variables. -/
theorem binding?_swap (h : ∀ v w, a = .var v → b ≠ .var w) : binding? b a = binding? a b := by
  cases a with
  | var v =>
    cases b with
    | var w => exact (h v w rfl rfl).elim
    | _ => rfl
  | _ => cases b <;> rfl

/-- The sides exchanged and renamed, the same variable is bound to the same type, unless both sides
are variables. -/
theorem binding?_mirror {t : Ty} (ha : ρ.matching.Types a a') (hb : ρ.matching.Types b b')
    (h : binding? a b = some (v, t)) :
    (∃ w, a = .var v ∧ b = .var w ∧ t = .var w) ∨
      ∃ t', binding? b' a' = some (ρ.types v, t') ∧ ρ.matching.Types t t' := by
  by_cases hvars : ∃ v w, a = .var v ∧ b = .var w
  · obtain ⟨_, w, rfl, rfl⟩ := hvars
    obtain ⟨rfl, rfl⟩ : _ = v ∧ _ = t := by simpa [binding?] using h
    exact .inl ⟨w, rfl, rfl, rfl⟩
  · have hswap := binding?_swap fun v w ha hb => hvars ⟨v, w, ha, hb⟩
    obtain ⟨⟨v', t'⟩, hb', hv, ht⟩ := exists_of_rel_some ((hswap.trans h) ▸ hb.binding? ha)
    obtain rfl : ρ.types v = v' := hv
    exact .inr ⟨t', hb', ht⟩

theorem binding?_mirror_none (ha : ρ.matching.Types a a') (hb : ρ.matching.Types b b')
    (h : binding? a b = none) :
    binding? b' a' = none := by
  have hswap : binding? b a = binding? a b := binding?_swap fun v w ha _ => by
    subst ha
    cases h
  exact eq_none_of_rel ((hswap.trans h) ▸ hb.binding? ha)

/-! ## Mirror images -/

/-- The second run has found the same as the first one up to a renaming, and the equations that
remain are those of the first one with their sides exchanged. -/
structure Mirror (ρ : Renaming) (c c' : Config) : Prop where
  valid : c.Valid
  valid' : c'.Valid
  /-- The equations are in normal form. -/
  normal : ∀ eq ∈ c.eqs, eq.Normal
  normal' : ∀ eq ∈ c'.eqs, eq.Normal
  /-- Both draw the same tails. -/
  fresh : c'.fresh = c.fresh
  /-- Tails to be drawn keep their names. -/
  fixed : ∀ {e}, c.fresh.Upcoming (.effect e) → ρ.effects e = e
  /-- Bound variables are renamed to bound ones. -/
  binds : ∀ {x x'}, ρ.matching.Vars x x' → (c.subst.Binds x ↔ c'.subst.Binds x')
  types : ∀ v, ρ.matching.Types (c.subst.valuation.types v) (c'.subst.valuation.types v)
  rows : ∀ e, ρ.matching.Rows (c.subst.valuation.row e) (c'.subst.valuation.row e)
  eqs : Forall₂ ρ.matching.Equations (c.eqs.map Equation.swap) c'.eqs

section Heads

variable {eqs' : List Equation}

theorem Mirror.head_types {a b : Ty} (h : Mirror ρ ⟨s, .types a b :: rest, f⟩ ⟨s', eqs', f'⟩) :
    ∃ a' b' rest', eqs' = .types b' a' :: rest' ∧ ρ.matching.Types a a' ∧ ρ.matching.Types b b' ∧
      Forall₂ ρ.matching.Equations (rest.map Equation.swap) rest' := by
  have heqs : Forall₂ _ (_ :: _) eqs' := h.eqs
  cases heqs with
  | cons heq hrest =>
    cases heq with
    | types hb ha => exact ⟨_, _, _, rfl, ha, hb, hrest⟩

theorem Mirror.head_rows {a b : Row} (h : Mirror ρ ⟨s, .rows a b :: rest, f⟩ ⟨s', eqs', f'⟩) :
    ∃ a' b' rest', eqs' = .rows b' a' :: rest' ∧ ρ.matching.Rows a a' ∧ ρ.matching.Rows b b' := by
  have heqs : Forall₂ _ (_ :: _) eqs' := h.eqs
  cases heqs with
  | cons heq hrest =>
    cases heq with
    | rows hb ha => exact ⟨_, _, _, rfl, ha, hb⟩

end Heads

/-- A step on both sides that replaces variables alike, up to another renaming. -/
theorem Mirror.next {eq eq' : Equation} (W W' : Valuation)
    (h : Mirror ρ ⟨s, eq :: rest, f⟩ ⟨s', eq' :: rest', f'⟩)
    (hstep : Step ⟨s, eq :: rest, f⟩ ⟨s₁, rest.map (·.under W), f₁⟩)
    (hstep' : Step ⟨s', eq' :: rest', f'⟩ ⟨s₁', rest'.map (·.under W'), f₁'⟩) (hfresh : f₁' = f₁)
    (hV : s₁.valuation = s.valuation.andThen W) (hV' : s₁'.valuation = s'.valuation.andThen W')
    (hW : ∀ v, (W.types v).Normal) (hW' : ∀ v, (W'.types v).Normal)
    (hfixed : ∀ {e}, f₁.Upcoming (.effect e) → ρ₁.effects e = e)
    (hbinds : ∀ {x x'}, ρ₁.matching.Vars x x' → (s₁.Binds x ↔ s₁'.Binds x'))
    (hresolved : (ρ.matching.restrict (¬ s.Binds ·)).Resolved ρ₁.matching W W') :
    Mirror ρ₁ ⟨s₁, rest.map (·.under W), f₁⟩ ⟨s₁', rest'.map (·.under W'), f₁'⟩ where
  valid := (hstep.reaches h.valid).valid
  valid' := (hstep'.reaches h.valid').valid
  normal eq₁ heq₁ := by
    obtain ⟨eq₀, -, rfl⟩ := mem_map.mp heq₁
    exact eq₀.normal_under hW
  normal' eq₁ heq₁ := by
    obtain ⟨eq₀, -, rfl⟩ := mem_map.mp heq₁
    exact eq₀.normal_under hW'
  fresh := hfresh
  fixed := hfixed
  binds := hbinds
  types v := by
    change ρ₁.matching.Types (s₁.valuation.types v) (s₁'.valuation.types v)
    rw [hV, hV']
    exact hresolved.types_under
      ((h.types v).restrict_of fun x hx => (h.valid.acyclic.mem_image (x := .type v) hx).2)
      (h.valid.substSorted.valuation h.valid.acyclic v)
      (h.valid'.substSorted.valuation h.valid'.acyclic v)
  rows e := by
    change ρ₁.matching.Rows (s₁.valuation.row e) (s₁'.valuation.row e)
    rw [hV, hV', Valuation.row_andThen, Valuation.row_andThen]
    refine hresolved.rows_under ((h.rows e).restrict_of fun z hz => ?_)
      (Valuation.isSorted_row _ e) (Valuation.isSorted_row _ e)
    exact (h.valid.acyclic.mem_image (x := .effect e) (by simp [Valuation.image, hz])).2
  eqs := by
    have hrest : Forall₂ ρ.matching.Equations (rest.map Equation.swap) rest' := by
      have heqs := h.eqs
      cases heqs with
      | cons _ hrest => exact hrest
    rw [forall₂_map_right_iff, map_map, forall₂_map_left_iff]
    rw [forall₂_map_left_iff] at hrest
    -- both lists of equations are sorted and mention no bound variable
    have hsorted : Forall₂ (fun eq' eq => eq'.RowsSorted ∧ ρ.matching.Equations eq.swap eq')
        rest' rest :=
      (forall₂_and_left _ _).mpr
        ⟨fun eq heq => h.valid'.eqsSorted eq (.tail _ heq), hrest.flip⟩
    refine forall₂_imp_of_mem hsorted.flip fun eq₀ heq₀ {eq₀'} hboth => ?_
    have hmem : eq₀ ∈ eq :: rest := .tail _ heq₀
    have hunbound : ∀ x ∈ eq₀.swap.occurrences, ¬ s.Binds x := fun x hx =>
      h.valid.resolved ⟨eq₀, hmem, Equation.mem_occurrences_swap.mp hx⟩
    rw [Function.comp_apply, Equation.swap_under]
    exact hresolved.equations_under (hboth.2.restrict_of hunbound)
      (h.valid.eqsSorted eq₀ hmem).swap hboth.1

/-- A step on both sides that only changes the equations. -/
theorem Mirror.next_eqs {eqs eqs' parts parts' : List Equation}
    (h : Mirror ρ ⟨s, eqs, f⟩ ⟨s', eqs', f'⟩) (hstep : Step ⟨s, eqs, f⟩ ⟨s, parts, f⟩)
    (hstep' : Step ⟨s', eqs', f'⟩ ⟨s', parts', f'⟩) (hnormal : ∀ eq ∈ parts, eq.Normal)
    (hnormal' : ∀ eq ∈ parts', eq.Normal)
    (hparts : Forall₂ ρ.matching.Equations (parts.map Equation.swap) parts') :
    Mirror ρ ⟨s, parts, f⟩ ⟨s', parts', f'⟩ :=
  { h with
    valid := (hstep.reaches h.valid).valid
    valid' := (hstep'.reaches h.valid').valid
    normal := hnormal
    normal' := hnormal'
    eqs := hparts }

theorem Mirror.next_decompose {parts parts' : List Equation}
    (h : Mirror ρ ⟨s, .types a b :: rest, f⟩ ⟨s', .types b' a' :: rest', f'⟩)
    (hstep : Equation.Decomposes a b parts) (hstep' : Equation.Decomposes b' a' parts')
    (hparts : Forall₂ ρ.matching.Equations (parts.map Equation.swap) parts')
    (hrest : Forall₂ ρ.matching.Equations (rest.map Equation.swap) rest') :
    Mirror ρ ⟨s, parts ++ rest, f⟩ ⟨s', parts' ++ rest', f'⟩ := by
  have hsides := h.normal _ (.head _)
  have hsides' := h.normal' _ (.head _)
  exact h.next_eqs (.decompose hstep) (.decompose hstep')
    (forall_mem_append.mpr ⟨hstep.normal hsides.1 hsides.2,
      fun eq heq => h.normal eq (.tail _ heq)⟩)
    (forall_mem_append.mpr ⟨hstep'.normal hsides'.1 hsides'.2,
      fun eq heq => h.normal' eq (.tail _ heq)⟩)
    (map_append ▸ rel_append hparts hrest)

/-! ### Bindings of type variables -/

/-- Both runs bind the same variable, up to the renaming. -/
theorem Mirror.bind {t t' : Ty} {v' : TypeVar}
    (h : Mirror ρ ⟨s, .types a b :: rest, f⟩ ⟨s', .types b' a' :: rest', f'⟩)
    (hab : a = .var v ∧ b = t ∨ a = t ∧ b = .var v) (hv : v ∉ t.typeOccurrences)
    (hab' : b' = .var v' ∧ a' = t' ∨ b' = t' ∧ a' = .var v') (hv' : v' ∉ t'.typeOccurrences)
    (hvv' : ρ.types v = v') (htt' : ρ.matching.Types t t') :
    Mirror ρ ⟨s.bindType v t, Equation.replaceAll v t rest, f⟩
      ⟨s'.bindType v' t', Equation.replaceAll v' t' rest', f'⟩ := by
  have hnormal := h.normal _ (.head _)
  have hnormal' := h.normal' _ (.head _)
  refine h.next (replacing v t) (replacing v' t') (.bind hab hv) (.bind hab' hv') h.fresh
    (valuation_bindType h.valid hnormal hab hv) (valuation_bindType h.valid' hnormal' hab' hv')
    (normal_replacing (normal_of_sides hab hnormal))
      (normal_replacing (normal_of_sides hab' hnormal'))
    h.fixed (fun {x x'} hx => ?_)
      ⟨fun hw => (valuations_replacing hvv' htt').types hw.2, fun he => ?_⟩
  · have hsame := hx.eq_iff (.type hvv' : ρ.matching.Vars (.type v) (.type v'))
    rw [Subst.binds_bindType, Subst.binds_bindType, hsame, h.binds hx]
  · exact rows_ofVar he.2

/-- The runs bind different ones of two variables. -/
theorem Mirror.bind_vars {w : TypeVar} (hne : v ≠ w)
    (h : Mirror ρ ⟨s, .types (.var v) (.var w) :: rest, f⟩
      ⟨s', .types (.var (ρ.types w)) (.var (ρ.types v)) :: rest', f'⟩) :
    Mirror (ρ.swapTypes v w) ⟨s.bindType v (.var w), Equation.replaceAll v (.var w) rest, f⟩
      ⟨s'.bindType (ρ.types w) (.var (ρ.types v)),
        Equation.replaceAll (ρ.types w) (.var (ρ.types v)) rest', f'⟩ := by
  have hinj {x y : TypeVar} : ρ.types x = ρ.types y ↔ x = y := ρ.types.injective.eq_iff
  have hfree {x y : TypeVar} (hxy : x ≠ y) : x ∉ (Ty.var y).typeOccurrences := by
    simpa [Equation.mem_typeOccurrences, Ty.occurrences] using hxy
  have hne' : ρ.types w ≠ ρ.types v := mt hinj.mp hne.symm
  refine h.next (replacing v (.var w)) (replacing (ρ.types w) (.var (ρ.types v)))
    (.bind (.inl ⟨rfl, rfl⟩) (hfree hne)) (.bind (.inl ⟨rfl, rfl⟩) (hfree hne')) h.fresh
    (valuation_bindType h.valid (h.normal _ (.head _)) (.inl ⟨rfl, rfl⟩) (hfree hne))
    (valuation_bindType h.valid' (h.normal' _ (.head _)) (.inl ⟨rfl, rfl⟩) (hfree hne'))
    (normal_replacing (.var _)) (normal_replacing (.var _)) h.fixed (fun {x x'} hx => ?_)
    ⟨fun {x x'} hx => ?_, fun he => rows_ofVar he.2⟩
  · rw [Subst.binds_bindType, Subst.binds_bindType]
    cases hx with
    | effect he => simpa using h.binds (.effect he)
    | @type x _ hx =>
      obtain rfl : (ρ.swapTypes v w).types x = _ := hx
      by_cases hxv : x = v
      · simp [hxv]
      by_cases hxw : x = w
      · have hbinds := h.binds (.type rfl : ρ.matching.Vars (.type v) (.type _))
        have hunbound : ¬ s.Binds (.type v) ∧ ¬ s.Binds (.type w) :=
          ⟨h.valid.resolved ⟨_, .head _, by simp [Equation.occurrences, Ty.occurrences]⟩,
            h.valid.resolved ⟨_, .head _, by simp [Equation.occurrences, Ty.occurrences]⟩⟩
        simp [hxw, hne.symm, hinj, hne, hunbound, ← hbinds]
      · have hbinds := h.binds (.type rfl : ρ.matching.Vars (.type x) (.type _))
        simp [Renaming.swapTypes_of_ne hxv hxw, hxv, hxw, hinj, hbinds]
  · obtain rfl : ρ.types x = x' := hx.2
    by_cases hxv : x = v
    · simpa [replacing, hxv, hne'.symm] using Types.var (ρ.swapTypes_right v w)
    by_cases hxw : x = w
    · simpa [replacing, hxw, hne.symm] using Types.var (ρ.swapTypes_right v w)
    · simpa [replacing, hxv, hxw, hinj] using Types.var (Renaming.swapTypes_of_ne hxv hxw)

/-! ### Bindings of tails -/

/-- The row bound to a tail, or the tail itself. -/
def boundRow (s : Subst) (e : EffectVar) : Row :=
  (s.effects.get? e).getD (.ofVar e)

theorem boundRow_bindEffect (s : Subst) (z e : EffectVar) (row : Row) :
    boundRow (s.bindEffect z row) e = if e = z then row else boundRow s e := by
  by_cases h : e = z <;> simp [boundRow, Subst.bindEffect, h]

theorem boundRow_of_not_binds {e : EffectVar} (h : ¬ s.Binds (.effect e)) :
    boundRow s e = .ofVar e := by
  have hnone : s.effects.get? e = none := by simpa [Subst.Binds] using h
  rw [boundRow, hnone, Option.getD_none]

/-- A step binds tails to rows that need no further resolving. -/
theorem row_of_rowStep {a b : Row} (hc : Config.Valid ⟨s, .rows a b :: rest, f⟩)
    (h : RowStep a b s f s₁ f₁) {e : EffectVar} (he : ¬ s.Binds (.effect e)) :
    s₁.valuation.row e = boundRow s₁ e := by
  have hacyclic := ((Step.rows h).reaches hc).valid.acyclic
  have hapart : ∀ z, f.Upcoming (.effect z) → .effect z ∉ (Equation.rows a b).occurrences :=
    fun z hz hmem => hc.unused hz ⟨_, .head _, hmem⟩
  rcases h.effects hc.distinct hapart e with hsame | ⟨-, row, hrow, hsorted, htail⟩
  · have hnone : s₁.effects.get? e = none := by simpa [Subst.Binds, hsame] using he
    rw [Valuation.row_of_none (Subst.effects_of_unbound hnone), boundRow, hnone, Option.getD_none]
  -- the tail of the row is as unbound as it was before the step
  · have hself : row.under s₁.valuation = row.under .self := by
      refine Row.under_congr fun z hz => Subst.effects_of_unbound ?_
      obtain ⟨hsame, hmem | hout⟩ := htail z hz
      · simpa [hsame, Subst.Binds] using hc.resolved ⟨_, .head _, hmem⟩
      · have hunmentioned := hc.unmentioned hout.1
        rw [hsame]
        simpa [Subst.Binds] using fun hbinds => hunmentioned (.inl hbinds)
    have hbound := hacyclic.effects_of_bound hrow
    rw [hself, Row.under_self] at hbound
    have hlabels : Sorted.ofList row.labels = row.labels := Sorted.IsSorted.ofList_eq hsorted
    rw [Valuation.row_of_some hbound, hlabels, boundRow, hrow, Option.getD_some]

/-- Rows found for the tails of `a` and `b` on both sides. -/
structure RowsFound (ρ ρ₁ : Renaming) (a b : Row) (s s' s₁ s₁' : Subst) : Prop where
  types : ρ₁.types = ρ.types
  /-- Only the tails get new names. -/
  moved : ∀ {e}, .effect e ∉ (Equation.rows a b).occurrences → ρ₁.effects e = ρ.effects e
  binds : ∀ e, s₁.Binds (.effect e) ↔ s₁'.Binds (.effect (ρ₁.effects e))
  rows : ∀ {e}, ¬ s.Binds (.effect e) → ¬ s'.Binds (.effect (ρ.effects e)) →
    ρ₁.matching.Rows (boundRow s₁ e) (boundRow s₁' (ρ.effects e))

section Tails

variable {a b : Row} {r q : EffectVar}

theorem rowsFound_self (hbinds : ∀ e, s.Binds (.effect e) ↔ s'.Binds (.effect (ρ.effects e))) :
    RowsFound ρ ρ a b s s' s s' where
  types := rfl
  moved _ := rfl
  binds := hbinds
  rows {e} he he' := by
    rw [boundRow_of_not_binds he, boundRow_of_not_binds he']
    exact rows_ofVar rfl

theorem RowsFound.bindEffect (h : RowsFound ρ ρ a b s s' s₁ s₁') {row row' : Row}
    (hrow : ρ.matching.Rows row row') :
    RowsFound ρ ρ a b s s' (s₁.bindEffect r row) (s₁'.bindEffect (ρ.effects r) row') where
  types := rfl
  moved _ := rfl
  binds e := by simp [Subst.binds_bindEffect, h.binds e]
  rows {e} he he' := by
    rw [boundRow_bindEffect, boundRow_bindEffect]
    by_cases her : e = r
    · simpa [her] using hrow
    · simpa [her] using h.rows he he'

/-- The runs bind different ones of two tails. -/
theorem rowsFound_join (hne : r ≠ q) (ha : a.tail = some r) (hb : b.tail = some q)
    (hr : ¬ s.Binds (.effect r)) (hq : ¬ s.Binds (.effect q))
    (hbinds : ∀ e, s.Binds (.effect e) ↔ s'.Binds (.effect (ρ.effects e))) :
    RowsFound ρ (ρ.swapEffects r q) a b s s' (s.bindEffect r (.ofVar q))
      (s'.bindEffect (ρ.effects q) (.ofVar (ρ.effects r))) where
  types := rfl
  moved {e} he := by
    refine Renaming.swapEffects_of_ne ?_ ?_ <;>
    · rintro rfl
      simp [Equation.occurrences, ha, hb] at he
  binds e := by
    rw [Subst.binds_bindEffect, Subst.binds_bindEffect]
    by_cases her : e = r
    · simp [her]
    by_cases heq : e = q
    · simp [heq, hne, hne.symm, hq, ← hbinds, hr]
    · simp [Renaming.swapEffects_of_ne her heq, her, heq, hbinds]
  rows {e} he he' := by
    rw [boundRow_bindEffect, boundRow_bindEffect, boundRow_of_not_binds he,
      boundRow_of_not_binds he']
    by_cases her : e = r
    · simpa [her, hne] using rows_ofVar (ρ.swapEffects_right r q)
    by_cases heq : e = q
    · simpa [heq, hne.symm] using rows_ofVar (ρ.swapEffects_right r q)
    · simpa [her, heq] using rows_ofVar (Renaming.swapEffects_of_ne her heq)

/-- The runs bind two tails in opposite orders. -/
theorem RowsFound.share (h : RowsFound ρ ρ a b s s' s₁ s₁') (hne : r ≠ q)
    {row row' more more' : Row}
    (hrow : ρ.matching.Rows row row') (hmore : ρ.matching.Rows more more') :
    RowsFound ρ ρ a b s s' ((s₁.bindEffect r row).bindEffect q more)
      ((s₁'.bindEffect (ρ.effects q) more').bindEffect (ρ.effects r) row') where
  types := rfl
  moved _ := rfl
  binds e := by simp only [Subst.binds_bindEffect, Var.effect.injEq, EmbeddingLike.apply_eq_iff_eq,
    h.binds e, or_left_comm]
  rows {e} he he' := by
    simp only [boundRow_bindEffect, EmbeddingLike.apply_eq_iff_eq]
    by_cases heq : e = q
    · simpa [heq, hne.symm] using hmore
    by_cases her : e = r
    · simpa [her, hne] using hrow
    · simpa [heq, her] using h.rows he he'

end Tails

/-! ## Runs -/

end Unify

/-- Failures of one kind, whatever types or rows they are about. -/
inductive UnifyError.SameKind : UnifyError → UnifyError → Prop
  | mismatch (a b a' b' : Ty) : SameKind (.mismatch a b) (.mismatch a' b')
  | rowMismatch (a b a' b' : Row) : SameKind (.rowMismatch a b) (.rowMismatch a' b')
  | occurs (v v' : TypeVar) (t t' : Ty) : SameKind (.occurs v t) (.occurs v' t')

/-- The second substitution does the same as the first one up to the names of variables. -/
def Subst.IsVariant (s s' : Subst) : Prop :=
  ∃ ρ : Renaming, ∀ t : Ty, t.RowsSorted → s'.apply t = (s.apply t).rename ρ

namespace Unify

open Matching

variable {ρ : Renaming} {s s' : Subst} {rest rest' : List Equation} {f : Fresh}

/-- Both unifications draw from the supply. -/
def BothDraw (f : Fresh) (u u' : Unifier) : Prop :=
  u.fresh = f ∧ u'.fresh = f

theorem bothDraw_record {E : UnifyError → UnifyError → Prop} (event event' : UnifyEvent) :
    InStep E (BothDraw f) (record event) (record event') (fun _ _ => True) (BothDraw f) :=
  .modify fun u u' h => by rwa [BothDraw, u.fresh_note, u'.fresh_note]

theorem bothDraw_freshEffectVar {E : UnifyError → UnifyError → Prop} :
    InStep E (BothDraw f) freshEffectVar freshEffectVar
      (fun e e' => e = f.effectVar.1 ∧ e' = f.effectVar.1) (BothDraw f.effectVar.2) :=
  .modifyGet fun u u' h => by
    obtain ⟨rfl, hu'⟩ := h
    simp [BothDraw, hu']

/-- Rows are unified alike from either side. -/
theorem solveRows_mirror {a b a' b' : Row} (ha : ρ.matching.Rows a a') (hb : ρ.matching.Rows b b')
    (h : Mirror ρ ⟨s, .rows a b :: rest, f⟩ ⟨s', .rows b' a' :: rest', f⟩) :
    InStep UnifyError.SameKind (BothDraw f) (solveRows s a b) (solveRows s' b' a')
      (fun s₁ s₁' => ∃ ρ₁, RowsFound ρ ρ₁ a b s s' s₁ s₁') fun u u' => ∃ f₁, BothDraw f₁ u u' := by
  have hbinds (e : EffectVar) : s.Binds (.effect e) ↔ s'.Binds (.effect (ρ.effects e)) :=
    h.binds (.effect rfl)
  have hself : RowsFound ρ ρ a b s s' s s' := rowsFound_self hbinds
  have hfound {f₁ : Fresh} {ρ₁ : Renaming} {s₁ s₁' : Subst} (event event' : UnifyEvent)
      (h : RowsFound ρ ρ₁ a b s s' s₁ s₁') :
      InStep UnifyError.SameKind (BothDraw f₁) (record event >>= fun _ => pure s₁)
        (record event' >>= fun _ => pure s₁')
        (fun s₁ s₁' => ∃ ρ₁, RowsFound ρ ρ₁ a b s s' s₁ s₁') fun u u' => ∃ f₁, BothDraw f₁ u u' :=
    (bothDraw_record ..).bind fun _ _ _ _ _ hst => .ok ⟨ρ₁, h⟩ ⟨f₁, hst⟩
  have hconflict (why why' : RowConflict) :
      InStep UnifyError.SameKind (BothDraw f) (conflict why a b) (conflict why' b' a')
        (fun s₁ s₁' => ∃ ρ₁, RowsFound ρ ρ₁ a b s s' s₁ s₁') fun u u' => ∃ f₁, BothDraw f₁ u u' :=
    (bothDraw_record ..).bind fun _ _ _ => .throw (.rowMismatch ..)
  have hrows := ha.eq_iff hb
  by_cases hsame : a = b
  · rw [solveRows, solveRows, if_pos hsame, if_pos (hrows.mp hsame).symm]
    exact fun _ _ hst => .ok ⟨ρ, hself⟩ ⟨f, hst⟩
  rw [solveRows, solveRows, if_neg hsame, if_neg (mt (hrows.mpr ∘ Eq.symm) hsame)]
  refine (bothDraw_record ..).bind fun _ _ _ => ?_
  have hlabels : a'.labelsNotIn b' = a.labelsNotIn b ∧ b'.labelsNotIn a' = b.labelsNotIn a := by
    simp only [Row.labelsNotIn, Row.has, ha.labels_eq, hb.labels_eq, and_self]
  rw [hlabels.1, hlabels.2]
  generalize a.labelsNotIn b = onlyA
  generalize b.labelsNotIn a = onlyB
  have hunbound {e : EffectVar} (he : .effect e ∈ (Equation.rows a b).occurrences) :
      ¬ s.Binds (.effect e) :=
    h.valid.resolved ⟨_, .head _, he⟩
  cases ha with
  | closed la =>
    cases hb with
    | closed lb =>
      dsimp only
      rw [Bool.and_comm onlyB.isEmpty]
      split
      · exact fun _ _ hst => .ok ⟨ρ, hself⟩ ⟨f, hst⟩
      · exact hconflict _ _
    | @extended lb q q' hq =>
      obtain rfl : ρ.effects q = q' := hq
      dsimp only
      split
      · exact hfound _ _ (hself.bindEffect (.closed _))
      · exact hconflict _ _
  | @extended la r r' hr =>
    obtain rfl : ρ.effects r = r' := hr
    cases hb with
    | closed lb =>
      dsimp only
      split
      · exact hfound _ _ (hself.bindEffect (.closed _))
      · exact hconflict _ _
    | @extended lb q q' hq =>
      obtain rfl : ρ.effects q = q' := hq
      dsimp only
      by_cases hshared : r = q
      · rw [if_pos hshared, if_pos (congrArg ρ.effects hshared.symm)]
        exact hconflict _ _
      have hshared' : ρ.effects q ≠ ρ.effects r := fun heq => hshared (ρ.effects.injective heq.symm)
      rw [if_neg hshared, if_neg hshared', Bool.and_comm onlyB.isEmpty]
      split
      · exact hfound _ _ (rowsFound_join hshared rfl rfl (hunbound (by simp [Equation.occurrences]))
          (hunbound (by simp [Equation.occurrences])) hbinds)
      -- the two runs bind the two tails in opposite orders
      · refine bothDraw_freshEffectVar.bind fun z z' hz => ?_
        obtain ⟨rfl, rfl⟩ := hz
        have hkept : ρ.effects f.effectVar.1 = f.effectVar.1 := h.fixed f.upcoming_effectVar
        exact hfound _ _ (hself.share hshared (.extended _ hkept) (.extended _ hkept))

/-- Both runs bind rows. -/
theorem Mirror.next_rows {a b a' b' : Row} {s₁ s₁' : Subst} {f₁ f₁' : Fresh} {ρ₁ : Renaming}
    (h : Mirror ρ ⟨s, .rows a b :: rest, f⟩ ⟨s', .rows b' a' :: rest', f⟩)
    (hstep : RowStep a b s f s₁ f₁) (hstep' : RowStep b' a' s' f s₁' f₁') (hfresh : f₁' = f₁)
    (hfound : RowsFound ρ ρ₁ a b s s' s₁ s₁') :
    Mirror ρ₁ ⟨s₁, Equation.resolveAllRows s₁ rest, f₁⟩
      ⟨s₁', Equation.resolveAllRows s₁' rest', f₁'⟩ := by
  have hupcoming {e : EffectVar} (he : f₁.Upcoming (.effect e)) : f.Upcoming (.effect e) :=
    hstep.later.upcoming he
  refine h.next (rowsOnly s₁) (rowsOnly s₁') (.rows hstep) (.rows hstep') hfresh
    (valuation_rows h.valid hstep) (valuation_rows h.valid' hstep') .var .var (fun {e} he => ?_)
    (fun {x x'} hx => ?_) ⟨fun {v v'} hv => ?_, fun {e e'} he => ?_⟩
  · rw [hfound.moved fun hmem => h.valid.unused (hupcoming he) ⟨_, .head _, hmem⟩]
    exact h.fixed (hupcoming he)
  · cases hx with
    | @type v _ hv =>
      have hbinds := h.binds (.type ((DFunLike.congr_fun hfound.types v).symm.trans hv))
      simpa [Subst.Binds, hstep.types_eq, hstep'.types_eq] using hbinds
    | @effect e _ he =>
      obtain rfl : ρ₁.effects e = _ := he
      exact hfound.binds e
  · exact .var ((DFunLike.congr_fun hfound.types v).trans hv.2)
  · obtain rfl : ρ.effects e = e' := he.2
    have hunbound' := mt (h.binds (.effect rfl : ρ.matching.Vars (.effect e) (.effect _))).mpr he.1
    change ρ₁.matching.Rows (s₁.valuation.row e) (s₁'.valuation.row (ρ.effects e))
    rw [row_of_rowStep h.valid hstep he.1, row_of_rowStep h.valid' hstep' hunbound']
    exact hfound.rows he.1 hunbound'

/-- What runs that are mirror images of each other have found is the same up to names. -/
theorem Mirror.isVariant {c c' : Config} (h : Mirror ρ c c') : c.subst.IsVariant c'.subst := by
  refine ⟨ρ, fun t ht => Renaming.eq_rename_of_types ?_⟩
  have hresolved : Renaming.id.matching.Resolved ρ.matching c.subst.valuation c'.subst.valuation :=
    ⟨fun {v v'} hv => by obtain rfl : v = v' := hv; exact h.types v,
      fun {e e'} he => by obtain rfl : e = e' := he; exact h.rows e⟩
  exact hresolved.types_under (Renaming.types_id t) ht ht

/-- Equations are solved alike from either side. -/
theorem solve_mirror {eqs eqs' : List Equation} {u u' : Unifier}
    (h : Mirror ρ ⟨s, eqs, u.fresh⟩ ⟨s', eqs', u'.fresh⟩) :
    SameOutcome UnifyError.SameKind Subst.IsVariant (fun u u' => u'.fresh = u.fresh) (solve s eqs u)
      (solve s' eqs' u') := by
  have hfresh : u'.fresh = u.fresh := h.fresh
  induction s, eqs using solve.induct generalizing ρ u u' s' eqs' with
  | case1 s =>
    obtain rfl : eqs' = [] := by simpa using h.eqs
    rw [solve, solve]
    exact .ok h.isVariant hfresh
  | case2 s a b rest ih =>
    obtain ⟨a', b', rest', rfl, ha, hb⟩ := h.head_rows
    rw [hfresh] at h
    rw [solve, solve]
    refine (solveRows_mirror ha hb h ⟨rfl, hfresh⟩).bind
      fun {s₁ s₁' u₁ u₁'} hrow hrow' hfound hdraw => ?_
    obtain ⟨ρ₁, hfound⟩ := hfound
    obtain ⟨f₁, hdraw⟩ := hdraw
    have hfresh₁ : u₁'.fresh = u₁.fresh := hdraw.2.trans hdraw.1.symm
    exact ih s₁ (h.next_rows (rowStep_of_solveRows hrow) (hfresh ▸ rowStep_of_solveRows hrow')
      hfresh₁ hfound) hfresh₁
  | case3 s a rest ih =>
    obtain ⟨a', b', rest', rfl, ha, hb, hrest⟩ := h.head_types
    obtain rfl := (ha.eq_iff hb).mp rfl
    rw [solve, solve, if_pos rfl, if_pos rfl]
    have hnext := h.next_eqs .identical .identical
      (fun eq heq => h.normal eq (.tail _ heq))
      (fun eq heq => h.normal' eq (.tail _ heq)) hrest
    exact sameOutcome_record _ _ fun hu₁ hu₁' => ih (by rwa [hu₁, hu₁']) (by rw [hu₁, hu₁', hfresh])
  | case4 s a b rest hne v t hb hv =>
    obtain ⟨a', b', rest', rfl, hta, htb, -⟩ := h.head_types
    have hne' : b' ≠ a' := fun heq => hne ((htb.eq_iff hta).mpr heq).symm
    rcases binding?_mirror hta htb hb with ⟨w, rfl, rfl, rfl⟩ | ⟨t', hb', htt'⟩
    · have hvw : v = w := by simpa [Equation.mem_typeOccurrences, Ty.occurrences] using hv
      exact (hne (congrArg Ty.var hvw)).elim
    · have hv' : ρ.types v ∈ t'.typeOccurrences := by
        rw [Equation.mem_typeOccurrences] at hv ⊢
        exact (htt'.mem_occurrences_iff (.type rfl)).mp hv
      simp only [solve_types hne, hb, if_pos hv, solve_types hne', hb', if_pos hv']
      exact sameOutcome_record _ _ fun _ _ => .error (.occurs ..)
  | case5 s a b rest hne v t hb hv ih =>
    obtain ⟨a', b', rest', rfl, hta, htb, -⟩ := h.head_types
    have hne' : b' ≠ a' := fun heq => hne ((htb.eq_iff hta).mpr heq).symm
    rcases binding?_mirror hta htb hb with ⟨w, rfl, rfl, rfl⟩ | ⟨t', hb', htt'⟩
    -- each run binds the variable on its own left
    · obtain rfl := Renaming.eq_rename_of_types hta
      obtain rfl := Renaming.eq_rename_of_types htb
      have hvw : v ≠ w := fun heq => hne (congrArg Ty.var heq)
      have hv' : ρ.types w ∉ (Ty.var (ρ.types v)).typeOccurrences := by
        simpa [Equation.mem_typeOccurrences, Ty.occurrences] using hvw.symm
      have hnext := h.bind_vars hvw
      simp only [Ty.rename] at hne' ⊢
      simp only [solve_types hne, solve_types hne', binding?, if_neg hv, if_neg hv']
      exact sameOutcome_record _ _ fun hu₁ hu₁' =>
        ih (by rwa [hu₁, hu₁']) (by rw [hu₁, hu₁', hfresh])
    · have hv' : ρ.types v ∉ t'.typeOccurrences := by
        rw [Equation.mem_typeOccurrences] at hv ⊢
        exact mt (htt'.mem_occurrences_iff (.type rfl)).mpr hv
      have hnext := h.bind (binding?_eq_some hb) hv (binding?_eq_some hb') hv' rfl htt'
      simp only [solve_types hne, hb, if_neg hv, solve_types hne', hb', if_neg hv']
      exact sameOutcome_record _ _ fun hu₁ hu₁' =>
        ih (by rwa [hu₁, hu₁']) (by rw [hu₁, hu₁', hfresh])
  | case6 s a b rest hne hb shape parts hd ih =>
    obtain ⟨a', b', rest', rfl, hta, htb, hrest⟩ := h.head_types
    have hne' : b' ≠ a' := fun heq => hne ((htb.eq_iff hta).mpr heq).symm
    -- exchange the sides first, then rename the parts
    obtain ⟨⟨shape₀, parts₀⟩, hd₀, hswap⟩ :=
      exists_of_rel_some (hd ▸ Equation.decompose?_swap a b)
    obtain rfl : parts.map Equation.swap = parts₀ := hswap
    obtain ⟨⟨shape', parts'⟩, hd', -, hparts⟩ := exists_of_rel_some (hd₀ ▸ htb.decompose? hta)
    have hnext := h.next_decompose (Equation.decomposes_of_eq_some hd)
      (Equation.decomposes_of_eq_some hd') hparts hrest
    simp only [solve_types hne, hb, hd, solve_types hne', binding?_mirror_none hta htb hb, hd']
    exact sameOutcome_record _ _ fun hu₁ hu₁' => ih (by rwa [hu₁, hu₁']) (by rw [hu₁, hu₁', hfresh])
  | case7 s a b rest hne hb hd =>
    obtain ⟨a', b', rest', rfl, hta, htb, -⟩ := h.head_types
    have hne' : b' ≠ a' := fun heq => hne ((htb.eq_iff hta).mpr heq).symm
    have hd₀ := eq_none_of_rel (hd ▸ Equation.decompose?_swap a b)
    simp only [solve_types hne, hb, hd, solve_types hne', binding?_mirror_none hta htb hb,
      eq_none_of_rel (hd₀ ▸ htb.decompose? hta)]
    exact sameOutcome_record _ _ fun _ _ => .error (.mismatch ..)

/-! ## Unification from either side -/

/-- A run from a substitution is its own mirror image before its first step. -/
theorem Ready.mirror {eq : Equation} (h : Ready s eq f) (hswap : Ready s eq.swap f) :
    Mirror .id (start s eq f) (start s eq.swap f) where
  valid := h.valid
  valid' := hswap.valid
  normal := forall_mem_singleton.mpr (eq.normal_under s.normal_valuation)
  normal' := forall_mem_singleton.mpr (eq.swap.normal_under s.normal_valuation)
  fresh := rfl
  fixed _ := rfl
  binds {x x'} hx := by
    cases hx with
    | type hv =>
      obtain rfl := hv
      rfl
    | effect he =>
      obtain rfl := he
      rfl
  types v := Renaming.types_id _
  rows e := Renaming.rows_id _
  eqs := by
    rw [start, start, map_singleton, Equation.swap_under]
    exact .cons (Renaming.equations_id _) .nil

/-- Unification, of types and of rows, ends in the same way from either side: it succeeds with
substitutions that are the same up to the names of variables, or fails with errors of one kind. -/
theorem unification_symmetric {s : Subst} {u : Unifier} (hs : s.Acyclic) (hrows : s.RowsSorted)
    (hdistinct : u.fresh.Distinct)
    (hunused : ∀ e, u.fresh.Upcoming (.effect e) → ¬ s.Mentions (.effect e)) :
    (∀ a b : Ty, a.RowsSorted → b.RowsSorted →
      (∀ e, u.fresh.Upcoming (.effect e) → .effect e ∉ a.occurrences ∧ .effect e ∉ b.occurrences) →
      SameOutcome UnifyError.SameKind Subst.IsVariant (fun u₁ u₂ => u₂.fresh = u₁.fresh)
        (types s a b u) (types s b a u)) ∧
    ∀ a b : Row, a.IsSorted → b.IsSorted →
      (∀ e, u.fresh.Upcoming (.effect e) → a.tail ≠ some e ∧ b.tail ≠ some e) →
      SameOutcome UnifyError.SameKind Subst.IsVariant (fun u₁ u₂ => u₂.fresh = u₁.fresh)
        (rows s a b u) (rows s b a u) := by
  have hready (eq : Equation) (hsorted : eq.RowsSorted)
      (happear : ∀ e, u.fresh.Upcoming (.effect e) → .effect e ∉ eq.occurrences) :
      Ready s eq u.fresh :=
    ⟨hs, hrows, hsorted, hdistinct, fun he => ⟨hunused _ he, happear _ he⟩⟩
  have hmirror (eq : Equation) (hsorted : eq.RowsSorted)
      (happear : ∀ e, u.fresh.Upcoming (.effect e) → .effect e ∉ eq.occurrences) :
      Mirror .id (start s eq u.fresh) (start s eq.swap u.fresh) :=
    (hready eq hsorted happear).mirror (hready eq.swap hsorted.swap
      fun e he => mt Equation.mem_occurrences_swap.mp (happear e he))
  constructor
  · intro a b ha hb hab
    refine solve_mirror (hmirror (.types a b) (fun r hr => ?_) fun e he hx => ?_)
    · exact (mem_append.mp hr).elim (ha r) (hb r)
    · exact (mem_append.mp hx).elim (hab e he).1 (hab e he).2
  · intro a b ha hb hab
    rw [rows, rows, ← solve_singleton, ← solve_singleton]
    refine solve_mirror (hmirror (.rows a b) ?_ fun e he => ?_)
    · simpa [Equation.RowsSorted, Equation.rowsOf] using ⟨ha, hb⟩
    · simpa [Equation.occurrences] using hab e he

/-- A function on `v` with a row of one label and the tail `e`. -/
private def arrow (label : String) (v : TypeVar) (e : EffectVar) : Ty :=
  .fn [.var v] (.app (.var v) [.var v]) ⟨[label], some e⟩

private theorem rowsSorted_arrow (label : String) (v : TypeVar) (e : EffectVar) :
    (arrow label v e).RowsSorted := by
  simp [arrow, Ty.RowsSorted, Ty.rows, Ty.rowsAll, Row.IsSorted, Sorted.IsSorted]

private theorem eq_of_mem_occurrences_arrow {label : String} {v : TypeVar} {e z : EffectVar}
    (h : .effect z ∈ (arrow label v e).occurrences) : z = e := by
  simpa [arrow, Ty.occurrences, Ty.occurrencesAll] using h

/-- The two parameters become one variable, a different one from either side, and the rows meet in a
fresh tail. -/
theorem unification_symmetric_arrows :
    ∃ s₁ u₁ s₂ u₂,
      types .empty (arrow "io" ⟨0⟩ ⟨0⟩) (arrow "fs" ⟨1⟩ ⟨1⟩)
        { fresh := { supply := .standalone 2 2 } } = .ok s₁ u₁ ∧
      types .empty (arrow "fs" ⟨1⟩ ⟨1⟩) (arrow "io" ⟨0⟩ ⟨0⟩)
        { fresh := { supply := .standalone 2 2 } } = .ok s₂ u₂ ∧
      s₁.apply (.var ⟨0⟩) = .var ⟨1⟩ ∧ s₂.apply (.var ⟨1⟩) = .var ⟨0⟩ ∧ s₁.IsVariant s₂ := by
  have hfirst : ((types .empty (arrow "io" ⟨0⟩ ⟨0⟩) (arrow "fs" ⟨1⟩ ⟨1⟩)).run'
      { fresh := { supply := .standalone 2 2 } }).map (·.apply (.var ⟨0⟩)) =
        some (.var ⟨1⟩) := by cbv
  have hsecond : ((types .empty (arrow "fs" ⟨1⟩ ⟨1⟩) (arrow "io" ⟨0⟩ ⟨0⟩)).run'
      { fresh := { supply := .standalone 2 2 } }).map (·.apply (.var ⟨1⟩)) =
        some (.var ⟨0⟩) := by cbv
  obtain ⟨s₁, hrun₁, hbound₁⟩ := Option.map_eq_some_iff.mp hfirst
  obtain ⟨s₂, hrun₂, hbound₂⟩ := Option.map_eq_some_iff.mp hsecond
  obtain ⟨u₁, hok₁⟩ := eq_ok_of_run' hrun₁
  obtain ⟨u₂, hok₂⟩ := eq_ok_of_run' hrun₂
  have hsame := (unification_symmetric (u := { fresh := { supply := .standalone 2 2 } })
    Subst.acyclic_empty Subst.rowsSorted_empty (Fresh.distinct_standalone 2 2 {})
    fun e _ => Subst.not_mentions_empty).1 _ _ (rowsSorted_arrow "io" ⟨0⟩ ⟨0⟩)
    (rowsSorted_arrow "fs" ⟨1⟩ ⟨1⟩) fun e he => ?_
  · rw [hok₁, hok₂] at hsame
    cases hsame with
    | ok hvariant _ => exact ⟨s₁, u₁, s₂, u₂, hok₁, hok₂, hbound₁, hbound₂, hvariant⟩
  · have hid := Fresh.upcoming_standalone_effect.mp he
    constructor <;> intro hmem
    · rw [eq_of_mem_occurrences_arrow hmem] at hid
      exact absurd hid (by decide)
    · rw [eq_of_mem_occurrences_arrow hmem] at hid
      exact absurd hid (by decide)

end Unify

end RowTyping
