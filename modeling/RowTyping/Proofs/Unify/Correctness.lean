import Mathlib
import RowTyping.Proofs.Computation
import RowTyping.Proofs.Unify.Completeness

/-!
# Unification is correct

Unification keeps the invariant of substitutions and finds a solution (`unification_sound`), and it
finds one whenever there is one, as general as possible (`unification_most_general`).
-/

namespace RowTyping.Unify

/-- Successful unification, of types and of rows, returns an acyclic substitution that keeps all
bindings, absorbs the one it started from and makes both sides equal. -/
theorem unification_sound {s : Subst} {u : Unifier} (hs : s.Acyclic) (hrows : s.RowsSorted)
    (hdistinct : u.fresh.Distinct)
    (hunused : ∀ e, u.fresh.Upcoming (.effect e) → ¬ s.Mentions (.effect e)) :
    (∀ a b s' u', a.RowsSorted → b.RowsSorted →
      (∀ e, u.fresh.Upcoming (.effect e) → .effect e ∉ a.occurrences ∧ .effect e ∉ b.occurrences) →
      types s a b u = .ok s' u' →
      s'.Acyclic ∧ s.Extends s' ∧ (∀ t, s'.apply t = s'.apply (s.apply t)) ∧
        s'.apply a = s'.apply b) ∧
    ∀ a b s' u', a.IsSorted → b.IsSorted →
      (∀ e, u.fresh.Upcoming (.effect e) → a.tail ≠ some e ∧ b.tail ≠ some e) →
      rows s a b u = .ok s' u' →
      s'.Acyclic ∧ s.Extends s' ∧ (∀ t, s'.apply t = s'.apply (s.apply t)) ∧
        s'.applyRow a = s'.applyRow b := by
  constructor
  · intro a b s' u' ha hb hab h
    have hready : Ready s (.types a b) u.fresh :=
      ⟨hs, hrows, fun r hr => (List.mem_append.mp hr).elim (ha r) (hb r), hdistinct,
        fun he => ⟨hunused _ he, fun hx => (List.mem_append.mp hx).elim (hab _ he).1 (hab _ he).2⟩⟩
    have hsteps := steps_of_types h
    obtain ⟨hreach, hholds⟩ := hready.solved hsteps
    exact ⟨hreach.valid.acyclic, hreach.grows.keeps, hready.apply_apply hsteps, hholds⟩
  · intro a b s' u' ha hb hab h
    have hready : Ready s (.rows a b) u.fresh :=
      ⟨hs, hrows, by simpa [Equation.RowsSorted, Equation.rowsOf] using ⟨ha, hb⟩, hdistinct,
        fun he => ⟨hunused _ he, by simpa [Equation.occurrences] using hab _ he⟩⟩
    have hsteps := steps_of_rows h
    obtain ⟨hreach, hholds⟩ := hready.solved hsteps
    exact ⟨hreach.valid.acyclic, hreach.grows.keeps, hready.apply_apply hsteps, hholds⟩

/-! ### Two function types whose rows share nothing -/

/-- `f Int -> a` with the row `{io | e}`. -/
private def applied : Ty :=
  .fn [.app (.var ⟨1⟩) [.int]] (.var ⟨0⟩) ⟨["io"], some ⟨0⟩⟩

/-- `Maybe Int -> Bool` with the row `{fs | e'}`. -/
private def concrete : Ty :=
  .fn [.named "Maybe" [.int]] .bool ⟨["fs"], some ⟨1⟩⟩

private theorem eq_of_mem_rows {r : Row} (hr : r ∈ applied.rows ∨ r ∈ concrete.rows) :
    r = ⟨["io"], some ⟨0⟩⟩ ∨ r = ⟨["fs"], some ⟨1⟩⟩ := by
  simpa [applied, concrete, Ty.rows, Ty.rowsAll, Ty.int, Ty.bool] using hr

private theorem isSorted_of_mem_rows {r : Row} (hr : r ∈ applied.rows ∨ r ∈ concrete.rows) :
    r.IsSorted := by
  rcases eq_of_mem_rows hr with rfl | rfl <;> simp [Row.IsSorted, Sorted.IsSorted]

private theorem id_lt_of_mem_occurrences {e : EffectVar}
    (he : .effect e ∈ applied.occurrences ∨ .effect e ∈ concrete.occurrences) : e.id < 2 := by
  have hid : e = ⟨0⟩ ∨ e = ⟨1⟩ := by
    simpa [applied, concrete, Ty.occurrences, Ty.occurrencesAll, Ty.int, Ty.bool] using he
  rcases hid with rfl | rfl <;> decide

/-- The two rows meet in a fresh tail. -/
theorem unification_sound_fresh_tail :
    ∃ s' u', types .empty applied concrete { fresh := { supply := .standalone 2 2 } } = .ok s' u' ∧
      s'.Acyclic ∧ s'.apply applied = s'.apply concrete := by
  have hsome : ((types .empty applied concrete).run'
      { fresh := { supply := .standalone 2 2 } }).isSome := by cbv
  obtain ⟨s', u', hok⟩ := exists_eq_ok hsome
  have hsound := (unification_sound Subst.acyclic_empty Subst.rowsSorted_empty
    (Fresh.distinct_standalone 2 2 {}) fun e _ => Subst.not_mentions_empty).1 applied concrete s' u'
    (fun r hr => isSorted_of_mem_rows (Or.inl hr)) (fun r hr => isSorted_of_mem_rows (Or.inr hr))
    (fun e he => ?_) hok
  · exact ⟨s', u', hok, hsound.1, hsound.2.2.2⟩
  · have hid := Fresh.upcoming_standalone_effect.mp he
    exact ⟨fun h => Nat.not_lt_of_le hid (id_lt_of_mem_occurrences (Or.inl h)),
      fun h => Nat.not_lt_of_le hid (id_lt_of_mem_occurrences (Or.inr h))⟩

/-- Unification of types with a solution succeeds with a substitution that the solution factors
through. -/
theorem unification_most_general {a b : Ty} {u : Unifier} {θ : Subst} (ha : a.RowsSorted)
    (hb : b.RowsSorted) (hdistinct : u.fresh.Distinct)
    (hunused : ∀ e, u.fresh.Upcoming (.effect e) →
      .effect e ∉ a.occurrences ∧ .effect e ∉ b.occurrences ∧ ¬ θ.Mentions (.effect e))
    (hθ : θ.Acyclic) (heq : θ.apply a = θ.apply b)
    (hlacks : ∀ r, r ∈ a.rows ∨ r ∈ b.rows → ∀ e, r.tail = some e → ∀ l ∈ r.labels,
      l ∉ (θ.applyRow (.ofVar e)).labels) :
    ∃ s u', types .empty a b u = .ok s u' ∧ ∃ θ' : Subst, θ'.Acyclic ∧
      ∀ t : Ty, t.RowsSorted → (∀ x ∈ t.occurrences, ¬ u.fresh.HandedOut u'.fresh x) →
        θ'.apply (s.apply t) = θ.apply t := by
  have hready : Ready .empty (.types a b) u.fresh := by
    refine ⟨Subst.acyclic_empty, Subst.rowsSorted_empty,
      fun r hr => (List.mem_append.mp hr).elim (ha r) (hb r), hdistinct, fun he =>
        ⟨Subst.not_mentions_empty, fun hx => ?_⟩⟩
    exact (List.mem_append.mp hx).elim (hunused _ he).1 (hunused _ he).2.1
  have hstart := solution_start hθ (fun he => (hunused _ he).2.2) heq hlacks
  obtain ⟨c, hsteps, ⟨hdone, u', hok, hfresh⟩ | ⟨⟨eq, hmem, hclash⟩, -⟩⟩ :=
    solve_outcome .empty [.types (Subst.empty.apply a) (Subst.empty.apply b)] u
  · obtain ⟨θ', hsolution, hagree⟩ := Steps.solution hsteps hready.valid hstart
    have hvalid := (Steps.reaches hsteps hready.valid).valid
    refine ⟨c.subst, u', hok, θ', hsolution.explains.acyclic, fun t ht hx => ?_⟩
    -- the solution at the end respects the bindings found, and drawn tails do not occur in `t`
    calc (t.under c.subst.valuation).under θ'.valuation
        = t.under (c.subst.valuation.andThen θ'.valuation) := (Ty.under_andThen _ _ t).symm
      _ = t.under θ'.valuation := ht.under_congr fun x _ =>
          hvalid.acyclic.sameAt_of_models hvalid.substSorted hsolution.explains.models x
      _ = t.under θ.valuation := Ty.under_congr fun x hxt =>
          hagree x (hfresh ▸ hx x hxt)
  -- a run that ends at a clash would have carried the solution there
  · obtain ⟨θ', hsolution, -⟩ := Steps.solution hsteps hready.valid hstart
    exact (hsolution.not_clash (Steps.reaches hsteps hready.valid).valid hmem hclash).elim

/-- The solution that closes both rows, `f = Maybe` and `a = Bool`. -/
private def closing : Subst :=
  (((Subst.empty.bindType ⟨0⟩ .bool).bindType ⟨1⟩ (.named "Maybe" [])).bindEffect ⟨0⟩
    (.closed ["fs"])).bindEffect ⟨1⟩ (.closed ["io"])

private theorem not_leadsTo_closing (x y : Var) : ¬ closing.LeadsTo x y := by
  intro h
  rcases Subst.leadsTo_bindEffect h with ⟨-, _, he, -⟩ | h
  · cases he
  rcases Subst.leadsTo_bindEffect h with ⟨-, _, he, -⟩ | h
  · cases he
  rcases Subst.leadsTo_bindType h with ⟨-, hy⟩ | h
  · cases hy
  rcases Subst.leadsTo_bindType h with ⟨-, hy⟩ | h
  · cases hy
  exact Subst.not_leadsTo_empty h

private theorem id_lt_of_mentions_closing {e : EffectVar} (he : closing.Mentions (.effect e)) :
    e.id < 2 := by
  rcases he with he | ⟨y, hy⟩
  · rcases Subst.binds_bindEffect.mp he with he | he
    · rw [Var.effect.inj he]
      decide
    rcases Subst.binds_bindEffect.mp he with he | he
    · rw [Var.effect.inj he]
      decide
    cases he
  · exact (not_leadsTo_closing y _ hy).elim

/-- The solution that closes both rows factors through the unifier with a shared tail. -/
theorem unification_most_general_closed_rows :
    ∃ s u', types .empty applied concrete { fresh := { supply := .standalone 2 2 } } = .ok s u' ∧
      ∃ θ' : Subst, θ'.apply (s.apply (.fn [.var ⟨0⟩] .unit (.ofVar ⟨1⟩))) =
        closing.apply (.fn [.var ⟨0⟩] .unit (.ofVar ⟨1⟩)) := by
  have hacyclic : closing.Acyclic := fun x hx => by
    obtain ⟨y, hxy, -⟩ := Relation.TransGen.head'_iff.mp hx
    exact not_leadsTo_closing x y hxy
  have hequal : closing.apply applied = closing.apply concrete := by cbv
  have hgeneral := unification_most_general (u := { fresh := { supply := .standalone 2 2 } })
    (fun r hr => isSorted_of_mem_rows (Or.inl hr)) (fun r hr => isSorted_of_mem_rows (Or.inr hr))
    (Fresh.distinct_standalone 2 2 {}) (fun e he => ?_) hacyclic hequal fun r hr e he l hl => ?_
  · obtain ⟨s, u', hok, θ', -, hθ'⟩ := hgeneral
    refine ⟨s, u', hok, θ', hθ' _ ?_ fun x hx hout => ?_⟩
    · simp [Ty.RowsSorted, Ty.rows, Ty.rowsAll, Ty.unit]
    · have hx : x = .type ⟨0⟩ ∨ x = .effect ⟨1⟩ := by
        simpa [Ty.occurrences, Ty.occurrencesAll, Ty.unit, Row.ofVar] using hx
      rcases hx with rfl | rfl
      · exact absurd (Fresh.upcoming_standalone_type.mp hout.1) (by decide)
      · exact absurd (Fresh.upcoming_standalone_effect.mp hout.1) (by decide)
  · have hid := Fresh.upcoming_standalone_effect.mp he
    exact ⟨fun h => Nat.not_lt_of_le hid (id_lt_of_mem_occurrences (Or.inl h)),
      fun h => Nat.not_lt_of_le hid (id_lt_of_mem_occurrences (Or.inr h)),
      fun h => Nat.not_lt_of_le hid (id_lt_of_mentions_closing h)⟩
  · rcases eq_of_mem_rows hr with rfl | rfl
    · obtain rfl : ⟨0⟩ = e := Option.some.inj he
      obtain rfl : l = "io" := by simpa using hl
      decide
    · obtain rfl : ⟨1⟩ = e := Option.some.inj he
      obtain rfl : l = "fs" := by simpa using hl
      decide

end RowTyping.Unify
