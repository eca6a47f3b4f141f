import RowTyping.Proofs.Unify.Sequence

/-!
# Successful unifications

What unification finds and draws depends on its supply only, not on what has been recorded
(`Unify.Stepwise.commutes`). So "solving the equations succeeds" is a relation between substitutions
and supplies, `Unify.Solves`. After some equations have been solved, the others are in order again
once they are resolved (`Unify.Solves.valid_rest`). So solving the parts of two types together is
unifying them in turn, each resolved under the bindings found by then (`Unify.types_eq_body`).
-/

namespace RowTyping

open List

namespace Unify

variable {s s' : Subst} {f f' : Fresh} {rest : List Equation}

/-! ## What a unification depends on -/

/-- The computation is put together from recording events and drawing tails. -/
inductive Stepwise : {α : Type} → UnifyM α → Prop
  | pure {α : Type} (a : α) : Stepwise (Pure.pure a)
  | throw {α : Type} (e : UnifyError) : Stepwise (MonadExcept.throw e : UnifyM α)
  | bind {α β : Type} {x : UnifyM α} {f : α → UnifyM β} (h : Stepwise x)
      (hf : ∀ a, Stepwise (f a)) :
    Stepwise (x >>= f)
  | record (event : UnifyEvent) : Stepwise (record event)
  | freshEffectVar : Stepwise freshEffectVar

namespace Stepwise

theorem after {α : Type} {x : UnifyM α} (event : UnifyEvent) (h : Stepwise x) :
    Stepwise (Unify.record event >>= fun _ => x) :=
  .bind (.record event) fun _ => h

theorem solveRows (s : Subst) (expected actual : Row) : Stepwise (solveRows s expected actual) := by
  have hconflict (why : RowConflict) : Stepwise (conflict why expected actual) :=
    .after _ (.throw _)
  rw [Unify.solveRows]
  split
  · exact .pure s
  refine .after _ ?_
  dsimp only
  split
  · split
    · exact .pure _
    · exact hconflict _
  · split
    · exact .after _ (.pure _)
    · exact hconflict _
  · split
    · exact .after _ (.pure _)
    · exact hconflict _
  · split
    · exact hconflict _
    · split
      · exact .after _ (.pure _)
      · exact .bind .freshEffectVar fun _ => .after _ (.pure _)

theorem solve (s : Subst) (eqs : List Equation) : Stepwise (solve s eqs) := by
  fun_induction Unify.solve s eqs with
  | case1 s => exact .pure s
  | case2 s a b rest ih => exact .bind (.solveRows s a b) ih
  | case3 | case5 | case6 => exact .after _ ‹_›
  | case4 | case7 => exact .after _ (.throw _)

/-- A unification depends on no more than a view of the unifier, if recording an event and drawing a
tail do not. -/
theorem commutes {view : Unifier → Unifier} (hrecord : ∀ event, Commutes view (Unify.record event))
    (hfresh : Commutes view Unify.freshEffectVar) {α : Type} {x : UnifyM α} (h : Stepwise x) :
    Commutes view x := by
  induction h with
  | pure | throw => exact fun _ => rfl
  | bind _ _ ih ihf => exact ih.bind ihf
  | record event => exact hrecord event
  | freshEffectVar => exact hfresh

end Stepwise

/-- From every unifier with the supply, the computation succeeds with the substitution and leaves
the other supply. -/
def Yields (x : UnifyM Subst) (f : Fresh) (s' : Subst) (f' : Fresh) : Prop :=
  ∀ u : Unifier, u.fresh = f → ∃ u', x u = .ok s' u' ∧ u'.fresh = f'

/-- Solving the equations succeeds, whatever has been recorded before. -/
def Solves (s : Subst) (eqs : List Equation) (f : Fresh) (s' : Subst) (f' : Fresh) : Prop :=
  Yields (solve s eqs) f s' f'

/-- A unifier with the supply that has recorded nothing. -/
private def bare (u : Unifier) : Unifier := { fresh := u.fresh }

theorem yields_of_eq_ok {x : UnifyM Subst} (hx : Stepwise x) {u u' : Unifier}
    (h : x u = .ok s' u') :
    Yields x u.fresh s' u'.fresh := by
  have hbare : Commutes bare x := by
    refine hx.commutes (fun event u => ?_) fun u => ?_
    · change EStateM.Result.ok () (bare u) = .ok () (bare (u.note event))
      rw [bare, bare, u.fresh_note]
    · rfl
  intro u₁ hu₁
  have hsame : viewed bare (x u₁) = viewed bare (x u) := by
    rw [← hbare u₁, ← hbare u, bare, bare, hu₁]
  rw [h] at hsame
  rcases hrun : x u₁ with ⟨s₁, u₁'⟩ | ⟨e, u₁'⟩ <;> rw [hrun] at hsame
  · injection hsame with hs hu
    exact ⟨u₁', by rw [hs], (Unifier.mk.inj hu).1⟩
  · cases hsame

theorem solves_of_solve {eqs : List Equation} {u u' : Unifier} (h : solve s eqs u = .ok s' u') :
    Solves s eqs u.fresh s' u'.fresh :=
  yields_of_eq_ok (.solve s eqs) h

theorem Solves.steps {eqs : List Equation} (h : Solves s eqs f s' f') :
    Steps ⟨s, eqs, f⟩ ⟨s', [], f'⟩ := by
  obtain ⟨u', hok, rfl⟩ := h { fresh := f } rfl
  obtain ⟨⟨s₁, eqs₁, f₁⟩, hsteps, ⟨rfl, u₁, hok₁, rfl⟩ | ⟨-, err, u₁, herr⟩⟩ :=
    solve_outcome s eqs { fresh := f }
  · obtain ⟨rfl, rfl⟩ : s₁ = s' ∧ u₁ = u' := by simpa [hok₁] using hok
    exact hsteps
  · simp [herr] at hok

theorem solve_singleton (s : Subst) (a b : Row) : solve s [.rows a b] = solveRows s a b := by
  have hdone : (fun s₁ => solve s₁ (Equation.resolveAllRows s₁ [])) = pure := by
    funext s₁
    rw [Equation.resolveAllRows, map_nil, solve]
  rw [solve, hdone, bind_pure]

end Unify

namespace Equation

theorem Normal.under_self {eq : Equation} (h : eq.Normal) : eq.under .self = eq := by
  cases eq with
  | types a b => exact congrArg₂ Equation.types h.1.under_self h.2.under_self
  | rows a b => exact congrArg₂ Equation.rows a.under_self b.under_self

theorem under_congr {eq : Equation} {V W : Valuation} (h : ∀ x ∈ eq.occurrences, V.AgreesAt W x) :
    eq.under V = eq.under W := by
  cases eq with
  | types a b =>
    refine congrArg₂ Equation.types (Ty.under_congr fun x hx => ?_) (Ty.under_congr fun x hx => ?_)
    · exact h x (mem_append_left _ hx)
    · exact h x (mem_append_right _ hx)
  | rows a b =>
    refine congrArg₂ Equation.rows (Row.under_congr fun e he => ?_) (Row.under_congr fun e he => ?_)
    · exact h (.effect e) (by simp [occurrences, he])
    · exact h (.effect e) (by simp [occurrences, he])

end Equation

namespace Unify

variable {s s' : Subst} {f f' : Fresh} {rest : List Equation}

/-- Leaving out equations keeps a configuration valid. -/
theorem Config.Valid.of_subset {eqs eqs' : List Equation} (hc : Config.Valid ⟨s, eqs, f⟩)
    (h : eqs' ⊆ eqs) : Config.Valid ⟨s, eqs', f⟩ where
  acyclic := hc.acyclic
  resolved := by
    rintro x ⟨eq, heq, hx⟩
    exact hc.resolved ⟨eq, h heq, hx⟩
  unmentioned := hc.unmentioned
  unused := by
    rintro e he ⟨eq, heq, hx⟩
    exact hc.unused he ⟨eq, h heq, hx⟩
  distinct := hc.distinct
  substSorted := hc.substSorted
  eqsSorted eq heq := hc.eqsSorted eq (h heq)

/-- After some equations have been solved, the others are in order again once they are resolved. -/
theorem Solves.valid_rest {s₁ : Subst} {f₁ : Fresh} {xs ys : List Equation}
    (h : Solves s xs f s₁ f₁) (hc : Config.Valid ⟨s, xs ++ ys.map (·.under s.valuation), f⟩) :
    Config.Valid ⟨s₁, ys.map (·.under s₁.valuation), f₁⟩ := by
  have hxs : Config.Valid ⟨s, xs, f⟩ := hc.of_subset (subset_append_left _ _)
  have hreach := Steps.reaches h.steps hxs
  have hacyclic : s₁.Acyclic := hreach.valid.acyclic
  -- resolving by the new bindings alone is the same as resolving once more
  have htwice (eq : Equation) :
      eq.under s₁.valuation = (eq.under s.valuation).under s₁.valuation := by
    rw [← Equation.under_andThen, hreach.grows.keeps.andThen_eq hc.acyclic hacyclic]
  have hmem {eq : Equation} (heq : eq ∈ ys) :
      eq.under s.valuation ∈ xs ++ ys.map (·.under s.valuation) :=
    mem_append_right _ (mem_map_of_mem heq)
  refine ⟨hacyclic, ?_, hreach.valid.unmentioned, ?_, hreach.valid.distinct,
    hreach.valid.substSorted, forall_mem_map.mpr fun eq heq => ?_⟩
  · rintro x ⟨_, heq', hx⟩
    obtain ⟨eq, heq, rfl⟩ := mem_map.mp heq'
    obtain ⟨y, -, hx⟩ := Equation.mem_occurrences_under.mp hx
    exact (hacyclic.mem_image hx).2
  · rintro e he ⟨_, heq', hx⟩
    obtain ⟨eq, heq, rfl⟩ := mem_map.mp heq'
    rw [htwice] at hx
    obtain ⟨y, hy, hx⟩ := Equation.mem_occurrences_under.mp hx
    rcases hacyclic.mentions_of_mem_image hx with rfl | hx
    · exact hc.unused (hreach.later.upcoming he) ⟨_, hmem heq, hy⟩
    · exact hreach.valid.unmentioned he hx
  · rw [htwice]
    exact (hc.eqsSorted _ (hmem heq)).under fun v _ =>
      hreach.valid.substSorted.valuation hacyclic v

/-! ## Unifying parts in turn -/

variable {a b : Ty} {u : Unifier}

theorem bind_congr_of_ok {ε σ α β : Type} {x : EStateM ε σ α} {g g' : α → EStateM ε σ β} {st : σ}
    (h : ∀ a st₁, x st = .ok a st₁ → g a st₁ = g' a st₁) : (x >>= g) st = (x >>= g') st := by
  change EStateM.bind x g st = EStateM.bind x g' st
  rcases hx : x st with ⟨a, st₁⟩ | ⟨e, st₁⟩
  · simp only [EStateM.bind, hx]
    exact h a st₁ hx
  · simp only [EStateM.bind, hx]

/-- Solving equations is unifying their sides in turn. -/
theorem solve_eq_inTurn (eqs : List Equation)
    (hc : Config.Valid ⟨s, eqs.map (·.under s.valuation), u.fresh⟩) :
    solve s (eqs.map (·.under s.valuation)) u = inTurn s eqs u := by
  induction eqs generalizing s u with
  | nil => rw [map_nil, solve, inTurn]
  | cons eq eqs ih =>
    have hfirst : inTurn s (eq :: eqs) = solve s [eq.under s.valuation] >>= (inTurn · eqs) := by
      cases eq with
      | types a b => rfl
      | rows a b =>
        change rows s a b >>= _ = solve s [.rows (s.applyRow a) (s.applyRow b)] >>= _
        rw [solve_singleton]
        rfl
    have hnormal : (eq.under s.valuation).Normal := Equation.normal_under s.normal_valuation eq
    rw [hfirst, map_cons]
    have hsplit : solve s ([eq.under s.valuation] ++ eqs.map (·.under s.valuation)) u = _ :=
      solve_append eqs hc (by simpa using hnormal)
    refine hsplit.trans (bind_congr_of_ok fun s₁ u₁ h₁ => ih ?_)
    exact (solves_of_solve h₁).valid_rest hc

/-- Resolved equations stay as they are when they are resolved again. -/
theorem Config.Valid.map_under_eq {eqs : List Equation} (hc : Config.Valid ⟨s, eqs, f⟩)
    (hnormal : ∀ eq ∈ eqs, eq.Normal) : eqs.map (·.under s.valuation) = eqs := by
  refine (map_congr_left fun eq heq => ?_).trans (map_id eqs)
  refine (Equation.under_congr fun x hx => ?_).trans (hnormal eq heq).under_self
  exact Subst.agreesAt_self (hc.resolved ⟨eq, heq, hx⟩)

/-- The parts of resolved types are resolved. -/
theorem Ready.parts {shape : Shape} {parts : List Equation} (h : Ready s (.types a b) f)
    (hd : Equation.decompose? (s.apply a) (s.apply b) = some (shape, parts)) :
    Config.Valid ⟨s, parts, f⟩ ∧ ∀ eq ∈ parts, eq.Normal := by
  have hparts := Equation.decomposes_of_eq_some hd
  have hstep : Step (start s (.types a b) f) ⟨s, parts ++ [], f⟩ := .decompose hparts
  rw [append_nil] at hstep
  exact ⟨(hstep.reaches h.valid).valid,
    hparts.normal (Ty.normal_under s.normal_valuation a) (Ty.normal_under s.normal_valuation b)⟩

/-- Unification does what it does by the calls it makes. -/
theorem types_eq_body (h : Ready s (.types a b) u.fresh) : types s a b u = body s a b u := by
  rw [types, body]
  by_cases hne : s.apply a = s.apply b
  · rw [if_pos hne, solve, if_pos hne]
    simp only [solve]
  · rw [if_neg hne, solve_types hne]
    rcases hb : binding? (s.apply a) (s.apply b) with _ | ⟨v, t⟩
    · rcases hd : Equation.decompose? (s.apply a) (s.apply b) with _ | ⟨shape, parts⟩
      · rfl
      · obtain ⟨hvalid, hnormal⟩ := h.parts hd
        have hsame := hvalid.map_under_eq hnormal
        refine bind_congr_of_ok fun _ u₁ hrecord => ?_
        obtain rfl := modify_eq_ok.mp hrecord
        have hrun := solve_eq_inTurn (u := u.note (.decompose shape (s.apply a) (s.apply b))) parts
          (by rw [hsame, Unifier.fresh_note]; exact hvalid)
        rw [hsame] at hrun
        simpa using hrun
    · simp only [Equation.replaceAll, map_nil, solve]

end Unify

end RowTyping
