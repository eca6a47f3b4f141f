import RowTyping.Proofs.Check.Starts
import RowTyping.Proofs.Infer.Declared

/-!
# The outcomes of a check

A check runs component after component and task after task, and takes over the outcome of each. What
it reports at the end is what the declarations left and, in order, what these outcomes hold
(`Checker.Gathers`). An outcome with signatures or resolutions has solved and generalised all its
members (`Component.infer_cases`).
-/

namespace RowTyping

open List

/-! ## Components -/

namespace Component

variable {reg : Registry} {env : Env} {pool : Pool} {ds : List Definition} {ms : List Member}

/-- Each member gets the solution of its own obligations. -/
theorem solveAll_ok {s : Subst} {solved : List Solved} (h : solveAll reg s ms = .ok solved) :
    Forall₂ (fun m one => reg.traits.solve s m.obligations = .ok one) ms solved :=
  forall₂_forEach (fun _ _ _ _ hsolve => hsolve) h

theorem getElem?_solveAll {s : Subst} {solved : List Solved} (h : solveAll reg s ms = .ok solved)
    {j : Nat} {m : Member} (hj : ms[j]? = some m) :
    ∃ one, solved[j]? = some one ∧ reg.traits.solve s m.obligations = .ok one := by
  obtain ⟨hlength, hget⟩ := forall₂_iff_get.mp (solveAll_ok h)
  obtain ⟨hlt, rfl⟩ := List.getElem?_eq_some_iff.mp hj
  have hlt' : j < solved.length := hlength ▸ hlt
  exact ⟨solved[j], getElem?_eq_getElem hlt', hget j hlt hlt'⟩

/-- Every resolution of a component comes from solving the obligations of a member. -/
theorem resolved_of_conclude {st : InferState} {events : BindingEvents} {o : Outcome}
    (h : conclude reg st events ms = .ok o) : ∀ entry ∈ o.resolutions, ∃ obs solved,
      reg.traits.solve st.subst obs = .ok solved ∧ entry.2 ∈ solved.resolved := by
  simp only [conclude, except_bind_eq_ok] at h
  obtain ⟨solved, hsolved, schemes, -, h⟩ := h
  cases h
  intro entry hentry
  obtain ⟨⟨m, one⟩, hzip, hentry⟩ := mem_flatMap.mp hentry
  obtain ⟨r, hr, rfl⟩ := mem_map.mp hentry
  obtain ⟨m', -, hsolve⟩ := of_mem_forall₂ (solveAll_ok hsolved) one (of_mem_zip hzip).2
  exact ⟨m'.obligations, one, hsolve, hr⟩

/-- A component infers all its members and concludes, or its outcome holds failures, and neither
schemes nor resolutions. -/
theorem infer_cases (reg : Registry) (env : Env) (pool : Pool) (ds : List Definition) :
    (∃ members st₁ ms st label, bindMembers ds (InferState.start pool.ready env) = .ok members st₁ ∧
      inferBodies reg 0 members st₁ = .ok ms st ∧
      conclude reg st (st.bindingEvents label) ms = .ok (infer reg env pool ds).1) ∨
    (infer reg env pool ds).1.schemes = [] ∧ (infer reg env pool ds).1.resolutions = [] ∧
      (infer reg env pool ds).1.failures ≠ [] := by
  rcases hmembers : bindMembers ds (InferState.start pool.ready env) with ⟨members, st₁⟩ | ⟨e, st₁⟩
  · have hstart := hmembers
    rw [Pool.ready] at hstart
    rcases hbodies : inferBodies reg 0 members st₁ with ⟨ms, st⟩ | ⟨b, st⟩
    · rcases hconclude : conclude reg st
        (st.bindingEvents (", ".intercalate (ds.map (·.name.node)))) ms with b | o
      · refine .inr ?_
        simp only [infer, EStateM.run, hstart, hbodies, hconclude]
        exact ⟨rfl, rfl, cons_ne_nil _ _⟩
      · refine .inl ⟨members, st₁, ms, st, ", ".intercalate (ds.map (·.name.node)), rfl,
          hbodies, ?_⟩
        simp only [infer, EStateM.run, hstart, hbodies, hconclude]
    · refine .inr ?_
      simp only [infer, EStateM.run, hstart, hbodies]
      exact ⟨rfl, rfl, cons_ne_nil _ _⟩
  · refine .inr ?_
    rw [Pool.ready] at hmembers
    simp only [infer, EStateM.run, hmembers]
    exact ⟨rfl, rfl, cons_ne_nil _ _⟩

/-- Every inferred scheme is a generalised one. -/
theorem of_mem_infer {entry : String × Scheme × Span}
    (h : entry ∈ (infer reg env pool ds).1.schemes) :
    ∃ t residual s hints deferred, generalize t residual s {} hints =
      .ok (entry.2.1, deferred) := by
  rcases infer_cases reg env pool ds with ⟨_, _, ms, st, _, -, -, hconclude⟩ | ⟨hschemes, -⟩
  · obtain ⟨solved, -, hschemes⟩ := conclude_ok hconclude
    obtain ⟨m, -, j, deferred, hgen⟩ := of_mem_generalizeAll hschemes entry h
    exact ⟨_, _, _, _, deferred, hgen⟩
  · rw [hschemes] at h
    cases h

/-- A component without failures infers its members and concludes. -/
theorem infer_succeeds (h : (infer reg env pool ds).1.failures = []) :
    ∃ members st ms st' label, bindMembers ds (InferState.start pool.ready env) = .ok members st ∧
      inferBodies reg 0 members st = .ok ms st' ∧
      conclude reg st' (st'.bindingEvents label) ms = .ok (infer reg env pool ds).1 :=
  (infer_cases reg env pool ds).resolve_right fun hfailure => hfailure.2.2 h

end Component

/-- The check of a declared definition reports its scheme, if it is to be reported. -/
theorem DeclaredTask.mem_schemes_check {reg : Registry} {env : Env} {pool : Pool}
    {task : DeclaredTask}
    {entry : String × Scheme × Span} (h : entry ∈ (task.check reg env pool).1.schemes) :
    task.isReported = true ∧ entry = (task.label, task.scheme, task.definition.span) := by
  rw [check] at h
  split at h
  · dsimp only at h
    split at h
    · exact ⟨‹_›, mem_singleton.mp h⟩
    · cases h
  · cases h

/-! ## What a checker takes over -/

/-- The signatures that an outcome adds to a report. -/
def Outcome.signatures (o : Outcome) : List Signature :=
  o.schemes.map fun (name, σ, span) => .ofScheme name σ span

namespace Checker

variable {c c' c'' : Checker}

/-- The outcomes of checks. -/
def outcomes {α : Type} (check : Registry → Env → Pool → α → Outcome × Pool) (rs : List (Run α)) :
    List Outcome :=
  rs.map fun r => (r.on check).1

/-- The second checker has taken over the outcomes after the first one. -/
structure Gathers (os : List Outcome) (c c' : Checker) : Prop where
  registry : c'.registry = c.registry
  signatures : c'.signatures = c.signatures ++ os.flatMap (·.signatures)
  resolutions : c'.resolutions = c.resolutions ++ os.flatMap (·.resolutions)
  kept : ∀ diag ∈ c.diagnostics, diag ∈ c'.diagnostics
  reported : ∀ o ∈ os, ∀ diag ∈ o.diagnostics, diag ∈ c'.diagnostics

theorem Gathers.refl (c : Checker) : Gathers [] c c :=
  ⟨rfl, by simp, by simp, fun _ h => h, nofun⟩

theorem Gathers.trans {os os' : List Outcome} (h : Gathers os c c') (h' : Gathers os' c' c'') :
    Gathers (os ++ os') c c'' where
  registry := h'.registry.trans h.registry
  signatures := by rw [h'.signatures, h.signatures, flatMap_append, append_assoc]
  resolutions := by rw [h'.resolutions, h.resolutions, flatMap_append, append_assoc]
  kept diag hdiag := h'.kept diag (h.kept diag hdiag)
  reported o ho diag hdiag := by
    rcases mem_append.mp ho with ho | ho
    · exact h'.kept diag (h.reported o ho diag hdiag)
    · exact h'.reported o ho diag hdiag

theorem Blocks.gathers {names : List String} (h : Blocks names c c') : Gathers [] c c' where
  registry := by rw [h.rest]
  signatures := by rw [h.rest]; simp
  resolutions := by rw [h.rest]; simp
  kept := h.kept
  reported := nofun

theorem foldl_absorbScheme (isInferred : Bool) (c : Checker)
    (schemes : List (String × Scheme × Span)) :
    (schemes.foldl (absorbScheme isInferred) c).signatures =
      c.signatures ++ schemes.map (fun (name, σ, span) => .ofScheme name σ span) ∧
    (schemes.foldl (absorbScheme isInferred) c).resolutions = c.resolutions := by
  induction schemes generalizing c with
  | nil => simp
  | cons entry schemes ih =>
    obtain ⟨hsignatures, hresolutions⟩ := ih (absorbScheme isInferred c entry)
    rw [foldl_cons, hsignatures, hresolutions]
    cases isInferred <;> simp [absorbScheme, addSignature, bindGlobal]

theorem gathers_absorb (isInferred : Bool) (c : Checker) (o : Outcome) :
    Gathers [o] c (absorb isInferred c o) := by
  obtain ⟨hsignatures, hresolutions⟩ := foldl_absorbScheme isInferred c o.schemes
  have hdiagnostics := diagnostics_absorb isInferred c o
  refine ⟨(absorb_keeps isInferred c o).2, ?_, ?_, fun diag hdiag => ?_,
    fun o' ho' diag hdiag => ?_⟩
  · rw [absorb, foldl_bindingFailed, flatMap_singleton]
    exact hsignatures
  · rw [absorb, foldl_bindingFailed, flatMap_singleton, ← hresolutions]
  · rw [hdiagnostics]
    exact mem_append_left _ hdiag
  · rw [hdiagnostics]
    rw [mem_singleton.mp ho'] at hdiag
    exact mem_append_right _ hdiag

theorem gathers_foldl_absorb (isInferred : Bool) (c : Checker) (os : List Outcome) :
    Gathers os c (os.foldl (absorb isInferred) c) := by
  induction os generalizing c with
  | nil => exact .refl c
  | cons o os ih => exact (gathers_absorb isInferred c o).trans (ih _)

/-- A checker takes over the outcomes of the checks it makes in turn. -/
theorem gathers_afterRuns {α : Type} (check : Registry → Env → Pool → α → Outcome × Pool)
    (isInferred : Bool) (c : Checker) (as : List α) :
    Gathers (outcomes check (c.runs check c.fresh.pool as)) c
      (afterRuns check isInferred c as) := by
  have hpool : Gathers [] c
      (c.setPool (runAll (check c.registry c.env) c.fresh.pool as).2) :=
    ⟨rfl, by simp [setPool], by simp [setPool], fun _ h => h, nofun⟩
  rw [outcomes, ← runAll_fst]
  exact hpool.trans (gathers_foldl_absorb isInferred _ _)

theorem gathers_inferWave (c : Checker) (wave : List (List Definition)) :
    Gathers (outcomes Component.infer (c.waveRuns wave)) c (c.inferWave wave) := by
  obtain ⟨_, -, hblocks, -⟩ := c.runnableComponents_spec wave
  exact hblocks.gathers.trans (gathers_afterRuns _ true _ _)

theorem gathers_foldl_inferWave (c : Checker) (waves : List (List (List Definition))) :
    Gathers (outcomes Component.infer (c.componentRuns waves)) c (waves.foldl inferWave c) := by
  induction waves generalizing c with
  | nil => exact .refl c
  | cons wave rest ih =>
    rw [componentRuns, outcomes, map_append]
    exact (c.gathers_inferWave wave).trans (ih _)

theorem gathers_inferComponents (c : Checker) :
    Gathers (outcomes Component.infer (c.componentRuns (wavesOf c.inferred))) c c.inferComponents :=
  c.gathers_foldl_inferWave (wavesOf c.inferred)

theorem gathers_checkDeclared (c : Checker) :
    Gathers (outcomes DeclaredTask.check c.taskRuns) c c.checkDeclared := by
  obtain ⟨_, -, hblocks, -⟩ := c.runnableTasks_spec c.declared
  exact hblocks.gathers.trans (gathers_afterRuns _ false _ _)

end Checker

/-- Signatures of a report have a written scheme, and then a global name, or an inferred one. -/
theorem Module.mem_signatures_check (m : Module) {trace : Bool} {sig : Signature}
    (h : sig ∈ (m.check trace).signatures) :
    let c := Checker.declareModule {} m
    ∃ name σ span, sig = .ofScheme name σ span ∧
      ((c.env.hasGlobal name = true ∧
          ∃ P w scope givens, Scheme.Written c.registry P w scope givens σ) ∨
        ∃ r : Run (List Definition), r.Valid c.registry ∧
          (name, σ, span) ∈ (r.on Component.infer).1.schemes) := by
  have hrecorded := Checker.recorded_declareModule m
  obtain ⟨hpoised, hvalid⟩ := (Checker.ready_declareModule m).poised.inferComponents
  rw [m.signatures_check trace, Checker.finish, mem_mergeSort, Module.checked,
    (Checker.gathers_checkDeclared _).signatures,
      (Checker.gathers_inferComponents _).signatures] at h
  simp only [Checker.outcomes, flatMap_map, mem_append, mem_flatMap] at h
  rcases h with (h | ⟨r, hr, h⟩) | ⟨r, hr, h⟩
  · obtain ⟨d, -, o, -, param, σ, ⟨_, _, -, hσ⟩, rfl, hname⟩ := hrecorded.signatures sig h
    exact ⟨_, σ, _, rfl, .inl ⟨hname, _, _, _, _, hσ⟩⟩
  · obtain ⟨⟨name, σ, span⟩, hentry, rfl⟩ := mem_map.mp h
    exact ⟨name, σ, span, rfl, .inr ⟨r, hvalid r hr, hentry⟩⟩
  · obtain ⟨entry, hentry, rfl⟩ := mem_map.mp h
    obtain ⟨hreported, rfl⟩ := DeclaredTask.mem_schemes_check hentry
    have htask := Checker.declared_inferComponents _ ▸ (hpoised.taskRuns r hr).2.1
    obtain ⟨hgives, hglobal⟩ := hrecorded.declared r.subject htask
    refine ⟨_, _, _, rfl, .inl ⟨hglobal hreported, ?_⟩⟩
    cases hgives with
    | operation _ _ _ _ _ _ _ heq =>
      rw [heq] at hreported
      cases hreported
    | signed _ _ hσ heq =>
      rw [heq]
      exact ⟨_, _, _, _, hσ⟩

end RowTyping
