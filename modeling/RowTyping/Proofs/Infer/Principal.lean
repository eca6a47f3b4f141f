import RowTyping.Proofs.Infer.Declared
import RowTyping.Proofs.Infer.Residuals

/-!
# Instances after generalisation

Generalisation closes a tail that occurs once, in the row of a function or of one that it returns.
The closed row of the function itself allows fewer effects than the open one may stand for
(`Ty.Narrows`), and the closed row of a function that is returned is an instance only of itself
(`Ty.KeepsRows`). Nothing else changes (`Ty.narrows_under_closing`).
-/

namespace RowTyping

open List

namespace Ty

/-- A function that the second type returns has the row that it has in the first one, if its row is
closed. -/
def KeepsRows (declared t : Ty) : Prop :=
  ∀ n r r', declared.resultRows[n + 1]? = some r → t.resultRows[n + 1]? = some r' →
    r'.tail = none → r = r'

variable {t u : Ty} {V : Valuation} {e : EffectVar} {tails : List EffectVar}

theorem Narrows.trans {t' : Ty} (h : t.Narrows u) (h' : u.Narrows t') : t.Narrows t' := by
  cases h with
  | refl => exact h'
  | fn params result hle =>
    cases h' with
    | refl => exact .fn params result hle
    | fn _ _ hle' =>
      refine .fn params result ⟨fun l hl => hle'.1 l (hle.1 l hl), ?_⟩
      rcases hle.2 with hnone | heq
      · exact .inl hnone
      · rw [heq]
        exact hle'.2

theorem Narrows.getElem?_resultRows (h : t.Narrows u) (n : Nat) :
    t.resultRows[n + 1]? = u.resultRows[n + 1]? := by
  cases h <;> rfl

theorem getElem?_resultRows_under {n : Nat} {r : Row} (h : t.resultRows[n]? = some r)
    (V : Valuation) :
    (t.under V).resultRows[n]? = some (r.under V) := by
  induction t generalizing n with
  | fn params result effects _ ih =>
    rw [under_fn]
    cases n with
    | zero =>
      cases h
      rfl
    | succ n => exact ih h
  | prim | var | named | app | tuple => cases h

/-- The tails occur only in the row of the function and in the rows of functions that it returns. -/
def OnlyInResults (t : Ty) (tails : List EffectVar) : Prop :=
  ∀ e ∈ tails, t.effectCount e ≤ (t.resultRows.filterMap (·.tail)).count e

section Function

variable {params : List Ty} {result : Ty} {effects : Row}

theorem count_tails_fn (e : EffectVar) :
    ((fn params result effects).resultRows.filterMap (·.tail)).count e =
    (effects.tail.map Var.effect).toList.count (.effect e) +
      (result.resultRows.filterMap (·.tail)).count e := by
  rcases effects with ⟨labels, _ | e'⟩
  · simp [resultRows]
  · simp [resultRows, count_cons, Nat.add_comm]

theorem count_tails_le (t : Ty) (e : EffectVar) :
    (t.resultRows.filterMap (·.tail)).count e ≤ t.effectCount e := by
  induction t with
  | fn params result effects _ ih =>
    rw [count_tails_fn]
    simp only [effectCount, occurrences, count_append] at ih ⊢
    omega
  | prim | var | named | app | tuple => exact Nat.zero_le _

/-- The tails do not occur in a parameter. -/
theorem OnlyInResults.of_fn (h : (fn params result effects).OnlyInResults tails) :
    (∀ e ∈ tails, .effect e ∉ occurrencesAll params) ∧ result.OnlyInResults tails := by
  have hparts (e : EffectVar) (he : e ∈ tails) : (occurrencesAll params).count (.effect e) = 0 ∧
      result.effectCount e ≤ (result.resultRows.filterMap (·.tail)).count e := by
    -- the result alone accounts for its rows, so nothing is left for the parameters
    have hcount := h e he
    have hle := count_tails_le result e
    rw [count_tails_fn] at hcount
    simp only [effectCount, occurrences, count_append] at hcount hle ⊢
    omega
  exact ⟨fun e he => count_eq_zero.mp (hparts e he).1, fun e he => (hparts e he).2⟩

end Function

/-! ## Closing tails -/

open Generalize

/-- A row with a closed tail has the labels it has apart from what the tail stands for. -/
theorem under_closing_row (r : Row) (V : Valuation) :
    r.under ((closing tails).valuation.andThen V) = r.under V ∨
      (r.under (closing tails).valuation).tail = none ∧
        ∀ l ∈ (r.under (closing tails).valuation).labels, l ∈ r.labels := by
  by_cases hclosed : ∃ e ∈ tails, r.tail = some e
  · obtain ⟨e, he, htail⟩ := hclosed
    obtain ⟨row, hrow⟩ := Option.isSome_iff_exists.mp (binds_closing he)
    have hpure : (closing tails).valuation.row e = .pure := by
      rw [Valuation.row_of_some (acyclic_closing.effects_of_bound hrow), (effects_closing hrow).2]
      rfl
    refine .inr ⟨by rw [Row.tail_under_of_some htail, hpure]; rfl, fun l hl => ?_⟩
    rw [Row.mem_labels_under_of_some htail, hpure] at hl
    exact hl.resolve_right not_mem_nil
  · push Not at hclosed
    refine .inl (Row.under_congr fun e he => ?_)
    refine Subst.agreesAt_of_not_binds (x := .effect e) (not_binds_closing fun e' he' heq => ?_) V
    exact hclosed e' he' (Var.effect.inj heq ▸ he)

theorem under_closing_of_not_mem (h : ∀ e ∈ tails, .effect e ∉ t.occurrences) (V : Valuation) :
    t.under ((closing tails).valuation.andThen V) = t.under V := by
  refine under_congr fun x hx => Subst.agreesAt_of_not_binds (not_binds_closing ?_) V
  rintro e he rfl
  exact h e he hx

theorem OnlyInResults.params_under {params : List Ty} {result : Ty} {effects : Row}
    (h : (fn params result effects).OnlyInResults tails) (V : Valuation) :
    params.map (·.under ((closing tails).valuation.andThen V)) = params.map (·.under V) :=
  map_congr_left fun p hp => under_closing_of_not_mem (fun e he hmem =>
    h.of_fn.1 e he (mem_occurrencesAll.mpr ⟨p, hp, hmem⟩)) V

theorem OnlyInResults.under_of_nil (h : t.OnlyInResults tails) (hrows : t.resultRows = [])
    (V : Valuation) :
    t.under ((closing tails).valuation.andThen V) = t.under V := by
  refine under_closing_of_not_mem (fun e he => count_eq_zero.mp (Nat.le_zero.mp ?_)) V
  have hcount := h e he
  rwa [hrows] at hcount

/-- Closing tails changes nothing where they stand for no effects besides those of their rows. -/
theorem under_closing (honce : t.OnlyInResults tails)
    (hkept : ∀ (n : Nat) (r r' : Row), (t.under V).resultRows[n]? = some r →
      (t.under (closing tails).valuation).resultRows[n]? = some r' → r'.tail = none → r = r') :
    t.under ((closing tails).valuation.andThen V) = t.under V := by
  induction t with
  | fn params result effects _ ih =>
    rw [under_fn] at hkept
    -- a row that is closed stands for itself, which is what the open one stands for
    have hrow : effects.under ((closing tails).valuation.andThen V) = effects.under V := by
      refine (under_closing_row effects V).elim id fun ⟨hnone, _⟩ => ?_
      rw [Row.under_andThen, Row.under_of_tail_none hnone]
      exact (hkept 0 _ _ rfl rfl hnone).symm
    rw [under_fn, under_fn, honce.params_under V, ih honce.of_fn.2 fun n => hkept (n + 1), hrow]
  | prim | var | named | app | tuple => exact honce.under_of_nil rfl V

/-- If functions that are returned keep their rows, closing tails only takes effects from the
outermost row. -/
theorem narrows_under_closing (honce : t.OnlyInResults tails)
    (hkeeps : (t.under V).KeepsRows (t.under (closing tails).valuation)) :
    (t.under ((closing tails).valuation.andThen V)).Narrows (t.under V) := by
  cases t with
  | fn params result effects =>
    rw [under_fn] at hkeeps
    rw [under_fn, under_fn, honce.params_under V, under_closing honce.of_fn.2 hkeeps]
    refine .fn _ _ ?_
    rcases under_closing_row effects V with heq | ⟨hnone, hlabels⟩
    · rw [heq]
    · rw [Row.under_andThen, Row.under_of_tail_none hnone]
      exact ⟨fun l hl => Row.mem_labels_under.mpr (.inl (hlabels l hl)), .inl hnone⟩
  | prim | var | named | app | tuple =>
    rw [honce.under_of_nil rfl V]
    exact .refl _

end Ty

namespace Scheme

variable {σ : Scheme} {V : Valuation} {t u : Ty}

/-- Rows of an instance that are closed in the scheme are those of the scheme. -/
theorem HasInstance.keepsRows (ht : σ.HasInstance V t) (h : t.Narrows u) : u.KeepsRows σ.type := by
  obtain ⟨W, -, rfl⟩ := ht
  intro n row row' hrow hrow' htail
  have hrow'' := Ty.getElem?_resultRows_under hrow' W
  rw [Row.under_of_tail_none htail, h.getElem?_resultRows] at hrow''
  exact Option.some.inj (hrow.symm.trans hrow'')

/-- If the closed row of the function itself may be opened, an instance with fewer effects can be
used at the type. -/
theorem HasClosedRow.opensTo {closed : Row}
    (hclosed : σ.HasClosedRow closed) (ht : σ.HasInstance V t) (h : t.Narrows u) :
    σ.OpensTo V u := by
  obtain ⟨hnone, params, result, hfn⟩ := id hclosed
  obtain ⟨W, hW, rfl⟩ := id ht
  rw [← Valuation.self_andThen W, Ty.under_andThen, hfn, Ty.under_fn,
    Row.under_of_tail_none hnone] at h ht
  cases h with
  | refl => exact ⟨_, _, closed, closed, hclosed, Row.le_refl _, ht, rfl⟩
  | fn _ _ hle => exact ⟨_, _, closed, _, hclosed, hle, ht, rfl⟩

end Scheme

open Generalize in
/-- What a type stands for is an instance of the scheme that generalisation makes of it, apart from
effects of the function itself, if returned functions keep their rows. -/
theorem hasInstance_of_generalize {t declared : Ty} {s : Subst}
    {residual deferred : List Obligation} {hints : VarNames} {S : Scheme} {V : Valuation}
    (hS : generalize t residual s {} hints = .ok (S, deferred))
    (hnarrows : ((s.apply t).under V).Narrows declared) (hkeeps : declared.KeepsRows S.type) :
    ∃ t, S.HasInstance .self t ∧ t.Narrows declared := by
  refine ⟨S.type.under V, ?_, .trans ?_ hnarrows⟩
  · refine Scheme.HasInstance.congr (fun x hx => ?_) ⟨_, fun _ _ => .refl _ _, rfl⟩
    exact (hx.2 ((Scheme.bindsAll_of_generalize hS).type x hx.1)).elim
  · rw [type_of_generalize hS] at hkeeps ⊢
    rw [← Ty.under_andThen]
    refine Ty.narrows_under_closing (fun e he => ?_) fun n row row' hrow => hkeeps n row row' ?_
    · obtain ⟨htail, hcount, -⟩ := mem_singletonTails_iff.mp he
      exact hcount ▸ count_pos_iff.mpr htail
    · rw [← hnarrows.getElem?_resultRows]
      exact hrow

end RowTyping
