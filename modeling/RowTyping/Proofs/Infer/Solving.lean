import RowTyping.Infer.Obligation
import RowTyping.Proofs.Composition

/-!
# Solving obligations

An obligation is met by the implementation for the head of its type, cannot be decided yet if a
variable is at the head, and cannot be met otherwise (`Obligation.Unmet`). Solving is exact: it
fails with the first obligation that cannot be met, and otherwise gives the resolutions of those
that are met and the first uses of the others (`Traits.solveAfter_eq`).

It does not matter how early an obligation is solved. Under more bindings a variable at the head may
turn into anything, but any other head remains (`Ty.Normal.headConstructor?_under`).
-/

namespace RowTyping

open List

namespace Obligation

/-- The obligation cannot be decided: its type has a variable at the head. -/
def IsResidual (ob : Obligation) (s : Subst) : Prop :=
  (s.apply ob.type).headVar?.isSome = true

/-- The implementation for the head of the obligation's type. -/
def implementation? (ob : Obligation) (ts : Traits) (s : Subst) : Option Implementation :=
  (s.apply ob.type).headConstructor?.bind (ts.impl? ob.traitName)

/-- The obligation cannot be met: the head of its type is not a variable and has no
implementation. -/
def Unmet (ob : Obligation) (ts : Traits) (s : Subst) : Prop :=
  ¬ ob.IsResidual s ∧ ob.implementation? ts s = none

instance (ob : Obligation) (s : Subst) : Decidable (ob.IsResidual s) :=
  inferInstanceAs (Decidable (_ = true))

instance (ob : Obligation) (ts : Traits) (s : Subst) : Decidable (ob.Unmet ts s) :=
  inferInstanceAs (Decidable (_ ∧ _))

/-- The first of several obligations that are the same requirement. -/
def firstUses (obs : List Obligation) : List Obligation :=
  obs.eraseDupsBy fun ob ob' => ob.toGiven = ob'.toGiven

theorem firstUses_cons (ob : Obligation) (obs : List Obligation) : firstUses (ob :: obs) =
    ob :: firstUses (obs.filter fun ob' => decide (ob'.toGiven = ob.toGiven) = false) :=
  eraseDupsBy_cons

theorem mem_of_mem_firstUses {ob : Obligation} {obs : List Obligation} (h : ob ∈ firstUses obs) :
    ob ∈ obs := by
  induction hlength : obs.length using Nat.strongRecOn generalizing obs with
  | _ n ih =>
    cases obs with
    | nil => cases h
    | cons ob' obs =>
      rw [firstUses_cons] at h
      refine (mem_cons.mp h).elim (fun h => h ▸ (.head _)) fun h => ?_
      have hlt := length_filter_le (fun ob => decide (ob.toGiven = ob'.toGiven) = false) obs
      exact .tail _ (mem_filter.mp (ih _ (by simp at hlength; omega) h rfl)).1

/-- Every requirement has a first use. -/
theorem exists_mem_firstUses {ob : Obligation} {obs : List Obligation} (h : ob ∈ obs) :
    ∃ kept ∈ firstUses obs, kept.toGiven = ob.toGiven := by
  induction hlength : obs.length using Nat.strongRecOn generalizing obs with
  | _ n ih =>
    cases obs with
    | nil => cases h
    | cons ob' obs =>
      rw [firstUses_cons]
      by_cases hsame : ob.toGiven = ob'.toGiven
      · exact ⟨ob', .head _, hsame.symm⟩
      · have hne : ob ≠ ob' := fun heq => hsame (heq ▸ rfl)
        have hmem : ob ∈ obs.filter fun ob => decide (ob.toGiven = ob'.toGiven) = false :=
          mem_filter.mpr ⟨(mem_cons.mp h).resolve_left hne, by simpa using hsame⟩
        have hlt := length_filter_le (fun ob => decide (ob.toGiven = ob'.toGiven) = false) obs
        obtain ⟨kept, hkept, hgiven⟩ := ih _ (by simp at hlength; omega) hmem rfl
        exact ⟨kept, .tail _ hkept, hgiven⟩

end Obligation

namespace Solved

/-- The first uses among obligations of requirements that are not there yet. -/
def newUses (solved : Solved) (obs : List Obligation) : List Obligation :=
  Obligation.firstUses (obs.filter fun ob => !solved.residual.any (·.toGiven = ob.toGiven))

theorem resolved_keep (solved : Solved) (ob : Obligation) :
    (solved.keep ob).resolved = solved.resolved := by
  rw [keep]
  split <;> rfl

/-- Keeping an obligation adds its first use. -/
theorem residual_keep (solved : Solved) (ob : Obligation) (obs : List Obligation) :
    (solved.keep ob).residual ++ (solved.keep ob).newUses obs =
      solved.residual ++ solved.newUses (ob :: obs) := by
  rcases hany : solved.residual.any (·.toGiven = ob.toGiven) with _ | _
  · have hkeep : (solved.keep ob).residual = solved.residual ++ [ob] := by simp [keep, hany]
    have hnew : (ob :: obs).filter (fun ob => !solved.residual.any (·.toGiven = ob.toGiven)) =
        ob :: obs.filter fun ob => !solved.residual.any (·.toGiven = ob.toGiven) := by simp [hany]
    rw [newUses, newUses, hkeep, hnew, Obligation.firstUses, Obligation.firstUses, eraseDupsBy_cons,
      filter_filter, append_assoc, singleton_append]
    -- what is not the same as a kept one or the new one
    congr 3
    refine filter_congr fun ob' _ => ?_
    simp [Bool.and_comm, eq_comm]
  · have hkeep : solved.keep ob = solved := by simp [keep, hany]
    have hold : (ob :: obs).filter (fun ob => !solved.residual.any (·.toGiven = ob.toGiven)) =
        obs.filter fun ob => !solved.residual.any (·.toGiven = ob.toGiven) := by simp [hany]
    rw [hkeep, newUses, newUses, hold]

end Solved

namespace Traits

variable {ts : Traits} {traitName : String} {t : Ty} {s s' : Subst} {ob : Obligation}
  {obs : List Obligation}

theorem goal_eq_resolved_iff {impl : Implementation} :
    ts.goal traitName t = .resolved impl ↔ t.headConstructor?.bind (ts.impl? traitName) =
      some impl := by
  rw [goal]
  rcases t.headConstructor? with _ | head
  · simp only [Option.bind_none, reduceCtorEq, iff_false]
    split <;> simp
  · rcases himpl : ts.impl? traitName head with _ | _ <;> simp [himpl]

theorem goal_eq_deferred_iff : ts.goal traitName t = .deferred ↔ t.headVar?.isSome = true := by
  cases t with
  | prim | named =>
    simp only [goal, Ty.headConstructor?, Ty.headVar?, Option.isSome_none, Bool.false_eq_true,
      iff_false]
    split <;> simp
  | var | app | fn | tuple => simp [goal, Ty.headConstructor?, Option.isSome_iff_ne_none]

theorem goal_eq_unresolved_iff : ts.goal traitName t = .unresolved ↔
    ¬ t.headVar?.isSome = true ∧ t.headConstructor?.bind (ts.impl? traitName) = none := by
  have hdeferred : ts.goal traitName t = .deferred ↔ _ := goal_eq_deferred_iff
  rw [← hdeferred, Option.eq_none_iff_forall_ne_some]
  simp only [ne_eq, ← goal_eq_resolved_iff]
  rcases ts.goal traitName t with impl | _ | _ <;> simp

theorem not_isResidual_of_headConstructor? {head : String}
    (h : (s.apply ob.type).headConstructor? = some head) : ¬ ob.IsResidual s := by
  rw [Obligation.IsResidual]
  generalize s.apply ob.type = t at h
  cases t with
  | prim | named => simp [Ty.headVar?]
  | var | app | fn | tuple => cases h

theorem not_isResidual_of_implementation? {impl : Implementation}
    (h : ob.implementation? ts s = some impl) : ¬ ob.IsResidual s := by
  obtain ⟨head, hhead, -⟩ := Option.bind_eq_some_iff.mp h
  exact not_isResidual_of_headConstructor? hhead

/-- Solving after others fails with the first obligation that cannot be met. Otherwise it adds the
resolutions of those that are met, and the first uses of those that cannot be decided, unless the
same requirement is there already. -/
theorem solveAfter_eq (ts : Traits) (s : Subst) (solved : Solved) (obs : List Obligation) :
    ts.solveAfter s solved obs =
      match obs.find? (·.Unmet ts s) with
      | some ob => .error (.unresolvedTrait ob.traitName (s.apply ob.type) ob.origin.span)
      | none => .ok
        { resolved := solved.resolved ++
            obs.filterMap fun ob => (ob.implementation? ts s).map ob.resolveBy
          residual :=
            solved.residual ++ solved.newUses
              ((obs.filter (·.IsResidual s)).map (·.apply s)) } := by
  induction obs generalizing solved with
  | nil => simp [solveAfter, Solved.newUses, Obligation.firstUses]
  | cons ob obs ih =>
    rcases hgoal : ts.goal ob.traitName (s.apply ob.type) with impl | _ | _
    · have himpl : ob.implementation? ts s = some impl := goal_eq_resolved_iff.mp hgoal
      have hresidual := not_isResidual_of_implementation? himpl
      simp [solveAfter, Obligation.apply, hgoal, ih, Obligation.Unmet, himpl, hresidual,
        Obligation.resolveBy,
        Solved.newUses]
    · have hresidual : ob.IsResidual s := goal_eq_deferred_iff.mp hgoal
      have himpl : ob.implementation? ts s = none :=
        Option.eq_none_iff_forall_ne_some.mpr fun impl h => by
          cases hgoal.symm.trans (goal_eq_resolved_iff.mpr h)
      have hkeep := solved.residual_keep (ob.apply s)
        ((obs.filter (·.IsResidual s)).map (·.apply s))
      simp only [Obligation.apply] at hkeep
      simp [solveAfter, Obligation.apply, hgoal, ih, Obligation.Unmet, himpl, hresidual, hkeep,
        Solved.resolved_keep]
    · have hunmet : ob.Unmet ts s := goal_eq_unresolved_iff.mp hgoal
      simp [solveAfter, Obligation.apply, hgoal, hunmet]

theorem solve_of_met (h : ∀ ob ∈ obs, ¬ ob.Unmet ts s) : ts.solve s obs = .ok
    { resolved := obs.filterMap fun ob => (ob.implementation? ts s).map ob.resolveBy
      residual := Obligation.firstUses ((obs.filter (·.IsResidual s)).map (·.apply s)) } := by
  have hfind : obs.find? (·.Unmet ts s) = none := by simpa using h
  rw [solve, solveAfter_eq, hfind]
  simp [Solved.newUses]

theorem solve_of_unmet {before after : List Obligation} (hbefore : ∀ ob' ∈ before, ¬ ob'.Unmet ts s)
    (hob : ob.Unmet ts s) : ts.solve s (before ++ ob :: after) =
      .error (.unresolvedTrait ob.traitName (s.apply ob.type) ob.origin.span) := by
  have hfind : (before ++ ob :: after).find? (·.Unmet ts s) = some ob :=
    find?_eq_some_iff_append.mpr ⟨by simpa using hob, before, after, rfl, by simpa using hbefore⟩
  rw [solve, solveAfter_eq, hfind]

/-- All obligations can be met or not decided yet, or there is a first one that cannot be met. -/
theorem met_or_first_unmet (ts : Traits) (s : Subst) (obs : List Obligation) :
    (∀ ob ∈ obs, ¬ ob.Unmet ts s) ∨ ∃ before ob after, obs = before ++ ob :: after ∧
      (∀ ob' ∈ before, ¬ ob'.Unmet ts s) ∧ ob.Unmet ts s := by
  rcases hfind : obs.find? (·.Unmet ts s) with _ | ob
  · exact .inl (by simpa using hfind)
  · obtain ⟨hob, before, after, hobs, hbefore⟩ := find?_eq_some_iff_append.mp hfind
    exact .inr ⟨before, ob, after, hobs, by simpa using hbefore, by simpa using hob⟩

/-- Solving fails exactly with the first obligation that cannot be met. -/
theorem solve_eq_error_iff {e : TypingError} : ts.solve s obs = .error e ↔
    ∃ before ob after, obs = before ++ ob :: after ∧ (∀ ob' ∈ before, ¬ ob'.Unmet ts s) ∧
      ob.Unmet ts s ∧ e = .unresolvedTrait ob.traitName (s.apply ob.type) ob.origin.span := by
  constructor
  · intro h
    rcases ts.met_or_first_unmet s obs with hmet | ⟨before, ob, after, rfl, hbefore, hob⟩
    · cases h.symm.trans (solve_of_met hmet)
    · cases h.symm.trans (solve_of_unmet hbefore hob)
      exact ⟨before, ob, after, rfl, hbefore, hob, rfl⟩
  · rintro ⟨before, ob, after, rfl, hbefore, hob, rfl⟩
    exact solve_of_unmet hbefore hob

/-- Solving succeeds exactly if no obligation cannot be met. -/
theorem solve_eq_ok_iff {solved : Solved} : ts.solve s obs = .ok solved ↔
    (∀ ob ∈ obs, ¬ ob.Unmet ts s) ∧
      solved.resolved = obs.filterMap (fun ob => (ob.implementation? ts s).map ob.resolveBy) ∧
      solved.residual = Obligation.firstUses ((obs.filter (·.IsResidual s)).map (·.apply s)) := by
  constructor
  · intro h
    rcases ts.met_or_first_unmet s obs with hmet | ⟨before, ob, after, rfl, hbefore, hob⟩
    · cases h.symm.trans (solve_of_met hmet)
      exact ⟨hmet, rfl, rfl⟩
    · cases h.symm.trans (solve_of_unmet hbefore hob)
  · obtain ⟨resolved, residual⟩ := solved
    rintro ⟨hmet, rfl, rfl⟩
    exact solve_of_met hmet

/-- What solving meets and keeps are obligations it was given. -/
theorem solve_origin {solved : Solved} (h : ts.solve s obs = .ok solved) :
    (∀ r ∈ solved.resolved, ∃ ob ∈ obs, ∃ impl,
      ob.implementation? ts s = some impl ∧ r = ob.resolveBy impl) ∧
    ∀ kept ∈ solved.residual, ∃ ob ∈ obs, ob.IsResidual s ∧ kept = ob.apply s := by
  obtain ⟨-, hresolved, hresidual⟩ := solve_eq_ok_iff.mp h
  refine ⟨fun r hr => ?_, fun kept hkept => ?_⟩
  · rw [hresolved] at hr
    obtain ⟨ob, hob, hmap⟩ := mem_filterMap.mp hr
    obtain ⟨impl, himpl, rfl⟩ := Option.map_eq_some_iff.mp hmap
    exact ⟨ob, hob, impl, himpl, rfl⟩
  · rw [hresidual] at hkept
    obtain ⟨ob, hob, rfl⟩ := mem_map.mp (Obligation.mem_of_mem_firstUses hkept)
    obtain ⟨hob, hdeferred⟩ := mem_filter.mp hob
    exact ⟨ob, hob, by simpa using hdeferred, rfl⟩

/-- Solving meets every obligation or keeps it. -/
theorem solve_cases {solved : Solved} (h : ts.solve s obs = .ok solved) (hob : ob ∈ obs) :
    (∃ impl, ob.implementation? ts s = some impl ∧ ob.resolveBy impl ∈ solved.resolved) ∨
      ob.IsResidual s ∧ ∃ kept ∈ solved.residual, kept.toGiven =
        ⟨ob.traitName, s.apply ob.type⟩ := by
  obtain ⟨hmet, hresolved, hresidual⟩ := solve_eq_ok_iff.mp h
  rw [hresolved, hresidual]
  by_cases hdeferred : ob.IsResidual s
  · have hmem : ob ∈ obs.filter (·.IsResidual s) := mem_filter.mpr ⟨hob, by simpa using hdeferred⟩
    exact .inr ⟨hdeferred, Obligation.exists_mem_firstUses (mem_map_of_mem hmem)⟩
  · obtain ⟨impl, himpl⟩ := Option.ne_none_iff_exists'.mp
      fun hnone => hmet ob hob ⟨hdeferred, hnone⟩
    exact .inl ⟨impl, himpl, mem_filterMap.mpr ⟨ob, hob, by rw [himpl]; rfl⟩⟩

end Traits

/-! ## Stability -/

/-- A head that is not a variable remains under any valuation. -/
theorem Ty.Normal.head_under {t : Ty} (h : t.Normal) (hvar : ¬ t.headVar?.isSome = true)
    (V : Valuation) :
    ¬ (t.under V).headVar?.isSome = true ∧ (t.under V).headConstructor? = t.headConstructor? := by
  cases t with
  | prim | named | fn | tuple => simp [Ty.headVar?, Ty.headConstructor?]
  | var => simp [Ty.headVar?] at hvar
  | app head args =>
    obtain ⟨hargs, hnamed, happ⟩ := h.of_app
    obtain ⟨arg, args, rfl⟩ := exists_cons_of_ne_nil hargs
    rw [Ty.headVar?] at hvar
    cases head with
    | prim | fn | tuple => simp [Ty.applyTo, Ty.headVar?, Ty.headConstructor?]
    | var => simp [Ty.headVar?] at hvar
    | named name before => exact absurd rfl (hnamed name before)
    | app inner before => exact absurd rfl (happ inner before)

namespace Traits

variable {s s' : Subst} {ob : Obligation}

/-- What can be decided about an obligation does not change under more bindings. -/
theorem decided_of_extends (ts : Traits) (hs : s.Acyclic) (hs' : s'.Acyclic) (h : s.Extends s')
    (hob : ¬ ob.IsResidual s) :
    ¬ ob.IsResidual s' ∧ ob.implementation? ts s' = ob.implementation? ts s := by
  have hunder := Subst.under_apply (h.absorbs hs hs' hs'.absorbs) ob.type
  obtain ⟨hvar, hhead⟩ := (s.normal_apply ob.type).head_under hob s'.valuation
  rw [hunder] at hvar hhead
  refine ⟨hvar, ?_⟩
  rw [Obligation.implementation?, Obligation.implementation?]
  exact congrArg (Option.bind · _) hhead

/-- Solving is exact and stable. It fails exactly with the first obligation whose type has neither a
variable at the head nor an implementation for it. Otherwise it gives the resolutions of the
obligations with an implementation and the first uses of those with a variable at the head, both in
order. Under more bindings an obligation that is met is met by the same implementation, and one that
cannot be met still cannot be met. -/
theorem solving_exact_stable (ts : Traits) (obs : List Obligation) (hs : s.Acyclic) :
    (∀ e, ts.solve s obs = .error e ↔
      ∃ before ob after, obs = before ++ ob :: after ∧ (∀ ob' ∈ before, ¬ ob'.Unmet ts s) ∧
        ob.Unmet ts s ∧ e = .unresolvedTrait ob.traitName (s.apply ob.type) ob.origin.span) ∧
    (∀ solved, ts.solve s obs = .ok solved ↔ (∀ ob ∈ obs, ¬ ob.Unmet ts s) ∧
      solved.resolved = obs.filterMap (fun ob => (ob.implementation? ts s).map ob.resolveBy) ∧
      solved.residual = Obligation.firstUses ((obs.filter (·.IsResidual s)).map (·.apply s))) ∧
    ∀ s', s'.Acyclic → s.Extends s' → ∀ ob : Obligation,
      (∀ impl, ob.implementation? ts s = some impl → ob.implementation? ts s' = some impl) ∧
      (ob.Unmet ts s → ob.Unmet ts s') := by
  refine ⟨fun _ => solve_eq_error_iff, fun _ => solve_eq_ok_iff, fun s' hs' hext ob => ⟨?_, ?_⟩⟩
  · intro impl himpl
    obtain ⟨-, hsame⟩ := decided_of_extends ts hs hs' hext (not_isResidual_of_implementation? himpl)
    exact hsame.trans himpl
  · rintro ⟨hdecided, hnone⟩
    obtain ⟨hdecided', hsame⟩ := decided_of_extends ts hs hs' hext hdecided
    exact ⟨hdecided', hsame.trans hnone⟩

/-- The variable `a` stands for `f Int`. -/
private def applied : Subst := Subst.empty.bindType ⟨0⟩ (.app (.var ⟨1⟩) [.int])

private def mapped :
    Implementation := { traitName := "Functor", typeName := "Maybe", methods := ["map"] }

private def functor (t : Ty) (start : UInt32) :
    Obligation := ⟨"Functor", t, ⟨⟨0, start, start⟩, .callEffects⟩⟩

/-- The requirement on `f Int` is kept where it is first used. The one on `Maybe` is met, also after
`f` has become `Maybe`, and one on a function is never met. -/
theorem solving_exact_stable_functor :
    let ts := ({} : Traits).insertImpl mapped
    let function := functor (.fn [.var ⟨0⟩] (.var ⟨0⟩) .pure) 4
    applied.Acyclic ∧
    ts.solve applied [functor (.var ⟨0⟩) 1, functor (.named "Maybe" []) 2,
        functor (.app (.var ⟨1⟩) [.int]) 3] =
      .ok ⟨[⟨"Functor", "Maybe", ["map"], ⟨0, 2, 2⟩⟩], [functor (.app (.var ⟨1⟩) [.int]) 1]⟩ ∧
    ts.solve applied [functor (.var ⟨0⟩) 1, function] = .error (.unresolvedTrait "Functor"
      (.fn [.app (.var ⟨1⟩) [.int]] (.app (.var ⟨1⟩) [.int]) .pure) ⟨0, 4, 4⟩) ∧
    (functor (.named "Maybe" []) 2).implementation? ts (applied.bindType ⟨1⟩ (.named "Maybe" [])) =
      some mapped ∧
    function.Unmet ts (applied.bindType ⟨1⟩ (.named "Maybe" [])) := by
  have hs : applied.Acyclic := Subst.acyclic_empty.bindType (by decide) (by decide)
  have hs' : (applied.bindType ⟨1⟩ (.named "Maybe" [])).Acyclic :=
    hs.bindType (by decide) (by decide)
  have hstable := (solving_exact_stable (({} : Traits).insertImpl mapped) [] hs).2.2 _ hs'
    (Subst.extends_bindType (by decide))
  refine ⟨hs, ((solving_exact_stable _ _ hs).2.1 _).mpr ⟨by decide, by decide, by decide⟩,
    ((solving_exact_stable _ _ hs).1 _).mpr
      ⟨[functor (.var ⟨0⟩) 1], _, [], rfl, by decide, by decide, rfl⟩,
    (hstable _).1 _ (by decide), (hstable _).2 (by decide)⟩

end Traits

end RowTyping
