import Mathlib
import RowTyping.Proofs.Check.Outcomes

/-!
# Obligations of accepted modules

In a module without errors, every obligation whose type turns out to have a known head is met by an
implementation, unless a local definition has taken it into its scheme: the requirements of such a
scheme are not decided where the definition stands, but only where it is used.
-/

namespace RowTyping

open List

/-! ## Solving -/

/-- Obligations that are solved and have a known head are met by implementations. -/
theorem Traits.isSome_impl?_of_solve {ts : Traits} {s : Subst} {obs : List Obligation}
    {solved : Solved}
    (h : ts.solve s obs = .ok solved) {ob : Obligation} (hob : ob ∈ obs) {head : String}
    (hhead : (s.apply ob.type).headConstructor? = some head) :
    (ts.impl? ob.traitName head).isSome := by
  have himpl : ob.implementation? ts s = ts.impl? ob.traitName head := by
    rw [Obligation.implementation?, hhead, Option.bind_some]
  rw [← himpl, Option.isSome_iff_ne_none]
  exact fun hnone => (solve_eq_ok_iff.mp h).1 ob hob
    ⟨not_isResidual_of_headConstructor? hhead, hnone⟩

/-! ## What an inference raises -/

namespace Inference

/-- The expressions that an inference comes to. -/
def visits (reg : Registry) (i : Inference) : List (Expr × InferState) :=
  Infer.visitsDefinition reg i.definition i.start

/-- The obligations that an inference raises. -/
def raised (reg : Registry) (i : Inference) : List Obligation :=
  (i.visits reg).flatMap Infer.raisedAt

/-- The requirements of the local schemes that are in scope during an inference. -/
def localGivens (reg : Registry) (i : Inference) : List Given :=
  (i.visits reg).flatMap fun v => v.2.env.locals.flatMap (·.givens)

/-- A pending obligation meets the requirement with an implementation, or a local scheme has it. -/
def Resolvable (reg : Registry) (i : Inference) (ob : Obligation) : Prop :=
  ∀ head, (i.final.subst.apply ob.type).headConstructor? = some head →
    (reg.traits.impl? ob.traitName head).isSome ∨
      ∃ g ∈ i.localGivens reg, g.traitName = ob.traitName ∧
        (i.final.subst.apply g.type).headConstructor? = some head

theorem gathers_localGivens (reg : Registry) (i : Inference) :
    Infer.Gathers (· ∈ i.localGivens reg) (i.visits reg) := fun v hv σ hσ _ hg =>
  mem_flatMap.mpr ⟨v, hv, mem_flatMap.mpr ⟨σ, hσ, hg⟩⟩

variable {reg : Registry} {i : Inference}

/-- An obligation like a pending one that has been solved is resolvable, and also one like a
requirement of a local scheme. -/
theorem resolvable_of_holds {st : InferState} {obs : List Obligation} {solution : Solved}
    {ob : Obligation}
    (h : Infer.Holds i.final.subst.valuation (· ∈ i.localGivens reg) st ob.toGiven)
    (hobs : ∀ ob ∈ st.obligations, ob ∈ obs)
    (hsolve : reg.traits.solve i.final.subst obs = .ok solution) : i.Resolvable reg ob := by
  intro head hhead
  rcases h with ⟨ob', hob', hlike⟩ | ⟨g, hg, hlike⟩
  · have hhead' : (i.final.subst.apply ob'.type).headConstructor? = some head := by
      rw [← hhead, Subst.apply_eq_under, Subst.apply_eq_under]
      exact hlike.head
    have htrait : ob'.traitName = ob.traitName := hlike.traitName
    exact .inl (htrait ▸ Traits.isSome_impl?_of_solve hsolve (hobs ob' hob') hhead')
  · refine .inr ⟨g, hg, hlike.traitName, ?_⟩
    rw [← hhead, Subst.apply_eq_under, Subst.apply_eq_under]
    exact hlike.head

end Inference

/-! ## Components -/

namespace Component

variable {reg : Registry} {env : Env} {pool : Pool} {ds : List Definition} {i : Inference}

theorem resolvable {c : Checker} (hpool : pool.Spaced) (hc : c.Valid pool.ready)
    (hi : i ∈ inferences c.registry c.env pool ds)
    (h : (infer c.registry c.env pool ds).1.failures = []) :
    ∀ ob ∈ i.raised c.registry, i.Resolvable c.registry ob := by
  obtain ⟨members, st, ms, st', label, hmembers, hbodies, hconclude⟩ := infer_succeeds h
  obtain ⟨solved, hsolved, -⟩ := conclude_ok hconclude
  have hstart := (hc.wellFormed (Fresh.pooled_ready hpool).distinct).toValid
  obtain ⟨hst, -, hts⟩ := bindMembers_ok hstart hmembers
  have hrun := inferBodies_ok hst hts hbodies
  rw [Pool.ready] at hmembers
  rw [inferences, hmembers] at hi
  obtain ⟨⟨d, start⟩, hd, rfl⟩ := mem_map.mp hi
  have hfinal : finalState c.registry members st = st' := by rw [finalState, hbodies, leftState]
  obtain ⟨t, s₁, m, hm, hvalid, ht, hbody, hobs, hextends⟩ := hrun.bodies _ hd
  have hruns := inferBody_ok hvalid ht hbody
  obtain ⟨j, hj⟩ := mem_iff_getElem?.mp hm
  obtain ⟨solution, -, hsolution⟩ := getElem?_solveAll hsolved hj
  have hacyclic := hrun.valid.subst.acyclic
  have hV := hextends.absorbs hruns.valid.acyclic hacyclic hacyclic.absorbs
  intro ob hob
  have hconserves := hruns.conserves hV
    (Inference.gathers_localGivens c.registry
      ⟨d.name.node, d, start, finalState c.registry members st⟩)
  rw [← hfinal] at hconserves
  refine Inference.resolvable_of_holds (hconserves.holds hob) (fun ob hob => ?_)
    (hfinal.symm ▸ hsolution)
  rwa [hobs]

end Component

/-! ## Declared definitions -/

theorem DeclaredTask.resolvable {c : Checker} {pool : Pool} {task : DeclaredTask}
    (hpool : pool.Spaced) (hc : c.Valid pool.ready) (htask : task ∈ c.declared)
    (h : (task.check c.registry c.env pool).1.failures = []) :
    ∀ ob ∈ (task.inference c.registry c.env pool).raised c.registry,
      (task.inference c.registry c.env pool).Resolvable c.registry ob := by
  have hstart := (hc.wellFormed (Fresh.pooled_ready hpool).distinct).toValid
  rcases hrun : Infer.checkDeclared c.registry task.definition task.scheme task.allowed
    (InferState.start pool.ready c.env) with ⟨resolved, st'⟩ | ⟨e, st'⟩
  · obtain ⟨st₁, solved, hfit, rfl, -, hsolve, -⟩ := Infer.checkDeclared_inv hrun
    have hfinal : (task.inference c.registry c.env pool).final.subst = st₁.subst := by
      rw [Pool.ready] at hrun
      rw [inference, hrun, leftState]
    intro ob hob
    have hruns := (Infer.fitDeclared_ok hstart (hc.declared task htask).usable.type hfit).1
    have hconserves := hruns.conserves hruns.valid.acyclic.absorbs
      (Inference.gathers_localGivens c.registry (task.inference c.registry c.env pool))
    refine Inference.resolvable_of_holds ?_ (fun _ h => h) (hfinal.symm ▸ hsolve)
    rw [hfinal]
    exact hconserves.holds hob
  · rw [Pool.ready] at hrun
    rw [check] at h
    simp only [EStateM.run, hrun] at h
    cases h

/-! ## Modules -/

theorem Outcome.failures_eq_nil {o : Outcome} {diagnostics : List Diagnostic}
    (h : diagnostics.any (·.isError) = false) (ho : ∀ diag ∈ o.diagnostics, diag ∈ diagnostics) :
    o.failures = [] := by
  refine eq_nil_iff_forall_not_mem.mpr fun f hf => ?_
  have hdiag := ho _ (mem_append_left _ (mem_map_of_mem hf))
  have herror := any_eq_false.mp h _ hdiag
  exact herror rfl

/-- In a module without errors, an obligation whose type has a known head at the end is met by an
implementation, or a local definition of that body has a requirement of that trait on a type with
that head. -/
theorem Module.known_heads_implemented (m : Module) (trace : Bool)
    (h : (m.check trace).hasErrors = false) :
    ∀ i ∈ m.inferences, ∀ ob ∈ i.raised (Checker.declareModule {} m).registry, ∀ head,
      (i.final.subst.apply ob.type).headConstructor? = some head →
      ((Checker.declareModule {} m).registry.traits.impl? ob.traitName head).isSome ∨
        ∃ g ∈ i.localGivens (Checker.declareModule {} m).registry, g.traitName = ob.traitName ∧
          (i.final.subst.apply g.type).headConstructor? = some head := by
  intro i hi ob hob head hhead
  have hwaves := (Checker.declareModule {} m).gathers_inferComponents
  have htasks := (Checker.declareModule {} m).inferComponents.gathers_checkDeclared
  obtain ⟨hpoised, hvalid⟩ := (Checker.ready_declareModule m).poised.inferComponents
  rw [Report.hasErrors, m.diagnostics_check trace] at h
  rcases mem_append.mp hi with hi | hi
  · obtain ⟨r, hr, hmem⟩ := mem_flatMap.mp hi
    have hrun := hvalid r hr
    have hok := Outcome.failures_eq_nil h fun diag hdiag =>
      htasks.kept diag (hwaves.reported _ (mem_map_of_mem hr) diag hdiag)
    rw [← hrun.registry] at hob ⊢
    exact Component.resolvable hrun.spaced hrun.valid hmem hok ob hob head hhead
  · obtain ⟨r, hr, rfl⟩ := mem_map.mp hi
    obtain ⟨hrun, -, htask⟩ := hpoised.taskRuns r hr
    have hok := Outcome.failures_eq_nil h (htasks.reported _ (mem_map_of_mem hr))
    rw [← hwaves.registry, ← hrun.registry] at hob ⊢
    exact DeclaredTask.resolvable hrun.spaced hrun.valid htask hok ob hob head hhead

/-- A trait `Show` with the operation `show`. -/
private def showTrait : Spanned Declaration :=
  Declaration.trait {
      name := "Show"
      param := "a"
      methods := [{
        name := "show"
        type := ⟨.function [.named "a"] (.named "String") .pure, .synthetic⟩ }] }

/-- The function `f` with the given parameter and body. -/
private def function (param : Pattern) (body : Expr) : Spanned Declaration :=
  Declaration.definition { name := "f", params := [param], body }

/-- A call of `show`. -/
private def shows (e : Expr) : Expr :=
  .call .synthetic (.var .synthetic "show") [e]

/-- Whether an obligation to show a type with the given head is raised. -/
private def raises (m : Module) (head : String) : Bool :=
  m.inferences.any fun i => (i.raised (Checker.declareModule {} m).registry).any fun ob =>
    ob.traitName = "Show" ∧ (i.final.subst.apply ob.type).headConstructor? = some head

private theorem exists_of_raises {m : Module} {head : String} (h : raises m head = true) :
    ∃ i ∈ m.inferences, ∃ ob ∈ i.raised (Checker.declareModule {} m).registry,
      ob.traitName = "Show" ∧ (i.final.subst.apply ob.type).headConstructor? = some head := by
  obtain ⟨i, hi, h⟩ := any_eq_true.mp h
  obtain ⟨ob, hob, h⟩ := any_eq_true.mp h
  exact ⟨i, hi, ob, hob, of_decide_eq_true h⟩

/-- A module in which `f` shows a number, with an implementation for numbers. -/
private def shownModule : Module where
  declarations := [showTrait,
    Declaration.impl {
        traitName := "Show"
        typeName := "Int"
        methods := [{
          name := "show"
          params := [.wildcard .synthetic]
          body := .lit .synthetic (.string "number") }] },
    function (.wildcard .synthetic) (shows (.lit .synthetic (.int 1)))]

set_option maxRecDepth 100000 in
private theorem hasErrors_shownModule : (shownModule.check false).hasErrors = false := by cbv

set_option maxRecDepth 100000 in
private theorem raises_shownModule : raises shownModule "Int" = true := by cbv

theorem Module.known_heads_implemented_shown :
    (shownModule.check false).hasErrors = false ∧
      (∃ i ∈ shownModule.inferences,
        ∃ ob ∈ i.raised (Checker.declareModule {} shownModule).registry, ob.traitName = "Show" ∧
          (i.final.subst.apply ob.type).headConstructor? = some "Int") ∧
      ∀ i ∈ shownModule.inferences, ∀ ob ∈ i.raised (Checker.declareModule {} shownModule).registry,
        ∀ head, (i.final.subst.apply ob.type).headConstructor? = some head →
          ((Checker.declareModule {} shownModule).registry.traits.impl? ob.traitName head).isSome ∨
            ∃ g ∈ i.localGivens (Checker.declareModule {} shownModule).registry,
              g.traitName = ob.traitName ∧
              (i.final.subst.apply g.type).headConstructor? = some head :=
  ⟨hasErrors_shownModule, exists_of_raises raises_shownModule,
    Module.known_heads_implemented shownModule false hasErrors_shownModule⟩

/-- A module in which `f` defines a local function that shows its argument in a `Some`, and does not
use it. Nothing implements `Show`. -/
private def hiddenModule : Module where
  declarations := [showTrait,
    function (.var .synthetic "x")
      (.letIn .synthetic (.var .synthetic "g") none
        (.lambda .synthetic [.var .synthetic "y"]
          (shows (.call .synthetic (.var .synthetic "Some") [.var .synthetic "y"])))
        (.var .synthetic "x"))]

set_option maxRecDepth 100000 in
private theorem hasErrors_hiddenModule : (hiddenModule.check false).hasErrors = false := by cbv

set_option maxRecDepth 100000 in
private theorem raises_hiddenModule : raises hiddenModule "Maybe" = true := by cbv

/-- A requirement that a local definition takes over may have a known head without an
implementation. -/
theorem Module.local_requirement_unmet :
    (hiddenModule.check false).hasErrors = false ∧
      ∃ i ∈ hiddenModule.inferences,
        ∃ ob ∈ i.raised (Checker.declareModule {} hiddenModule).registry,
          (i.final.subst.apply ob.type).headConstructor? = some "Maybe" ∧
          (Checker.declareModule {} hiddenModule).registry.traits.impl? ob.traitName "Maybe" =
            none := by
  obtain ⟨i, hi, ob, hob, htrait, hhead⟩ := exists_of_raises raises_hiddenModule
  refine ⟨hasErrors_hiddenModule, i, hi, ob, hob, hhead, ?_⟩
  rw [htrait]
  decide +kernel

end RowTyping
