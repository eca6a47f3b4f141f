import RowTyping.Check.Module
import RowTyping.Proofs.Infer.Tracing

/-!
# Tracing changes nothing but the traces

A pass that records what happens and one that does not check the same components with the same
variables and come to the same outcomes. So the report on a module is the same with and without
traces, up to the traces themselves (`Module.check_eq`), and so are the answers of a unifier to any
sequence of calls.
-/

namespace RowTyping

/-- The events without what has been recorded. -/
def BindingEvents.untraced (events : BindingEvents) : BindingEvents :=
  { events with unify := #[], infer := #[] }

/-- The outcome without what has been recorded. -/
def Outcome.untraced (o : Outcome) : Outcome :=
  { o with events := o.events.untraced }

/-- A check with the pool of a pass that records nothing has the same outcome and leaves the same
pool, without what is recorded. -/
def Checker.Uniform {α : Type} (check : Pool → α → Outcome × Pool) : Prop :=
  ∀ pool a, check pool.untraced a = ((check pool a).1.untraced, (check pool a).2.untraced)

/-! ## Components and declared definitions -/

namespace Component

open Infer

variable {reg : Registry}

theorem untraced_bindMembers (ds : List Definition) :
    Commutes InferState.untraced (bindMembers ds) := by
  have hfresh : Stepwise [] [] [] (freshTypes ds) := .freshTypes ds
  exact hfresh.untraced.bind fun types => .bind (fun _ => rfl) fun _ _ => rfl

theorem stepwise_inferBody (reg : Registry) (d : Definition) (t : Ty) :
    Stepwise [] [] (d.body.freeReferences (Pattern.boundNamesAll d.params))
      (inferBody reg d t) := by
  refine .andThen (.definition d) fun r => ?_
  dsimp only
  split
  · exact .after (.unifyRows _ _ _) fun _ => .unify _ _ _
  · exact .unify _ _ _

theorem untraced_inferBodies (reg : Registry) (k : Nat) (members : List (Definition × Ty)) :
    Commutes InferState.untraced (inferBodies reg k members) := by
  induction members generalizing k with
  | nil => exact fun _ => rfl
  | cons m members ih =>
    obtain ⟨d, t⟩ := m
    rw [inferBodies]
    refine Commutes.bind (fun st => ?_) fun _ => (ih (k + 1)).bind fun _ _ => rfl
    have hmember : Commutes InferState.untraced (inferBody reg d t *> takeMember d t) :=
      (stepwise_inferBody reg d t).untraced.bind fun _ _ => rfl
    simp only [EStateM.run, hmember st]
    cases (inferBody reg d t *> takeMember d t) st <;> rfl

/-- The outcome of an untraced state is without what has been recorded. -/
theorem conclude_untraced (reg : Registry) (st : InferState) (label : String) (ms : List Member) :
    conclude reg st.untraced (st.untraced.bindingEvents label) ms =
      (conclude reg st (st.bindingEvents label) ms).map Outcome.untraced := by
  change (solveAll reg st.subst ms >>= _) = Except.map _ (solveAll reg st.subst ms >>= _)
  rcases solveAll reg st.subst ms with b | solved
  · rfl
  · change (generalizeAll st (solved.map (·.residual)) ms >>= _) =
      Except.map _ (generalizeAll st (solved.map (·.residual)) ms >>= _)
    cases generalizeAll st (solved.map (·.residual)) ms <;> rfl

theorem infer_uniform (reg : Registry) (env : Env) : Checker.Uniform (infer reg env) := by
  intro pool ds
  have hbind := untraced_bindMembers ds (.start { supply := .pooled, pool } env)
  have hstart : InferState.start { supply := .pooled, pool := pool.untraced } env =
      (InferState.start { supply := .pooled, pool } env).untraced := rfl
  rw [infer, infer, hstart]
  rcases hrun : bindMembers ds (.start { supply := .pooled, pool } env) with ⟨members, st⟩ |
      ⟨e, st⟩ <;>
    rw [hrun, viewed] at hbind <;> simp only [EStateM.run, hrun, hbind]
  · have hbodies := untraced_inferBodies reg 0 members st
    rcases hrun : inferBodies reg 0 members st with ⟨ms, st⟩ | ⟨b, st⟩ <;>
      rw [hrun, viewed] at hbodies <;> simp only [hbodies]
    · rw [conclude_untraced]
      cases conclude reg st _ ms <;> rfl
    · rfl
  · rfl

end Component

namespace DeclaredTask

theorem check_uniform (reg : Registry) (env : Env) : Checker.Uniform (check reg env) := by
  intro pool task
  have hcheck := (Infer.Stepwise.checkDeclared reg task.definition task.scheme
    task.allowed).untraced (.start { supply := .pooled, pool } env)
  have hstart : InferState.start { supply := .pooled, pool := pool.untraced } env =
      (InferState.start { supply := .pooled, pool } env).untraced := rfl
  rw [check, check, hstart]
  simp only [EStateM.run, hcheck]
  cases Infer.checkDeclared reg task.definition task.scheme task.allowed
    (.start { supply := .pooled, pool } env) <;> rfl

end DeclaredTask

/-! ## The checker -/

namespace Checker

variable {α : Type} {check : Pool → α → Outcome × Pool}

/-- The checker without what has been recorded. -/
def untraced (c : Checker) : Checker :=
  { c with fresh := c.fresh.untraced, events := c.events.map (·.untraced) }

theorem foldl_untraced {step : Checker → α → Checker}
    (hstep : ∀ c a, step c.untraced a = (step c a).untraced)
    (as : List α) (c : Checker) : as.foldl step c.untraced = (as.foldl step c).untraced :=
  List.foldl_hom untraced hstep

theorem absorb_untraced (isInferred : Bool) (c : Checker) (o : Outcome) :
    absorb isInferred c.untraced o.untraced = (absorb isInferred c o).untraced := by
  have hscheme (c : Checker) (entry : String × Scheme × Span) :
      absorbScheme isInferred c.untraced entry = (absorbScheme isInferred c entry).untraced := by
    cases isInferred <;> rfl
  simp only [absorb, Outcome.untraced, foldl_untraced hscheme]
  rw [foldl_untraced fun _ _ => rfl]
  simp only [untraced, List.map_append, List.map_singleton]

/-- Uniform checks run alike one after the other. -/
theorem Uniform.runAll (hcheck : Uniform check) (pool : Pool) (as : List α) :
    runAll check pool.untraced as =
      ((runAll check pool as).1.map Outcome.untraced, (runAll check pool as).2.untraced) := by
  induction as generalizing pool with
  | nil => rfl
  | cons a as ih => simp only [Checker.runAll, hcheck pool a, ih, List.map_cons]

/-- What uniform checks add to a checker does not depend on what is recorded. -/
theorem Uniform.absorbAll (hcheck : Uniform check) (isInferred : Bool) (c : Checker) (as : List α) :
    (Checker.runAll check c.untraced.fresh.pool as).1.foldl (absorb isInferred)
        (c.untraced.setPool (Checker.runAll check c.untraced.fresh.pool as).2) =
      ((Checker.runAll check c.fresh.pool as).1.foldl (absorb isInferred)
        (c.setPool (Checker.runAll check c.fresh.pool as).2)).untraced := by
  have hpool : c.untraced.fresh.pool = c.fresh.pool.untraced := rfl
  rw [hpool, hcheck.runAll, List.foldl_map]
  have hset (pool : Pool) : c.untraced.setPool pool.untraced = (c.setPool pool).untraced := rfl
  rw [hset]
  exact List.foldl_hom untraced (absorb_untraced isInferred)

/-- Which components are looked at does not depend on what is recorded. -/
theorem runnableComponents_untraced (c : Checker) (wave : List (List Definition)) :
    c.untraced.runnableComponents wave =
      ((c.runnableComponents wave).1, (c.runnableComponents wave).2.untraced) := by
  induction wave generalizing c with
  | nil => rfl
  | cons ds rest ih =>
    have hcontains : c.untraced.failed = c.failed := rfl
    rcases hfind : (ds.flatMap (·.freeNames)).find? (c.failed.contains ·) with _ | dependency
    · simp only [runnableComponents, hcontains, hfind, ih]
    · simp only [runnableComponents, hcontains, hfind]
      rw [foldl_untraced fun _ _ => rfl, ih]

theorem runnableTasks_untraced (c : Checker) (tasks : List DeclaredTask) :
    c.untraced.runnableTasks tasks =
      ((c.runnableTasks tasks).1, (c.runnableTasks tasks).2.untraced) := by
  induction tasks generalizing c with
  | nil => rfl
  | cons task rest ih =>
    have hcontains : c.untraced.failed = c.failed := rfl
    have hfailed (e : TypingError) :
        c.untraced.bindingFailed task.label e = (c.bindingFailed task.label e).untraced := rfl
    rcases hfind : task.definition.freeNames.find? (c.failed.contains ·) with _ | dependency
    · simp only [runnableTasks, hcontains, hfind, ih]
    · simp only [runnableTasks, hcontains, hfind, hfailed, ih]

theorem inferWave_untraced (c : Checker) (wave : List (List Definition)) :
    c.untraced.inferWave wave = (c.inferWave wave).untraced := by
  simp only [inferWave, runnableComponents_untraced]
  exact (Component.infer_uniform _ _).absorbAll true _ _

theorem inferComponents_untraced (c : Checker) :
    c.untraced.inferComponents = c.inferComponents.untraced :=
  foldl_untraced inferWave_untraced _ c

theorem checkDeclared_untraced (c : Checker) :
    c.untraced.checkDeclared = c.checkDeclared.untraced := by
  have hdeclared : c.untraced.declared = c.declared := rfl
  simp only [checkDeclared, hdeclared, runnableTasks_untraced]
  exact (DeclaredTask.check_uniform _ _).absorbAll false _ _

end Checker

/-! ## Reports -/

/-- The checker when all definitions of a module have been looked at and nothing is recorded. -/
def Module.checked (m : Module) : Checker :=
  (Checker.declareModule {} m).inferComponents.checkDeclared

/-- A report differs from that of a pass that records nothing only in its traces. -/
theorem Module.check_eq (m : Module) (trace : Bool) :
    m.check trace = { m.checked.finish false with traces := (m.check trace).traces } := by
  have hchecked : ((Checker.declareModule
    {} m).setTracing trace).inferComponents.checkDeclared.untraced =
      m.checked.untraced := by
    simp only [checked, ← Checker.checkDeclared_untraced, ← Checker.inferComponents_untraced]
    rfl
  have hsignatures := congrArg Checker.signatures hchecked
  have hdiagnostics := congrArg Checker.diagnostics hchecked
  have hfailed := congrArg Checker.failed hchecked
  have hresolutions := congrArg Checker.resolutions hchecked
  simp only [Checker.untraced] at hsignatures hdiagnostics hfailed hresolutions
  simp only [check, checked, Checker.finish, hsignatures, hdiagnostics, hfailed, hresolutions]

theorem Module.signatures_check (m : Module) (trace : Bool) :
    (m.check trace).signatures = (m.checked.finish false).signatures := by
  rw [m.check_eq trace]

theorem Module.diagnostics_check (m : Module) (trace : Bool) :
    (m.check trace).diagnostics = m.checked.diagnostics := by
  rw [m.check_eq trace, Checker.finish]

theorem Module.failed_check (m : Module) (trace : Bool) :
    (m.check trace).failed = m.checked.failed := by
  rw [m.check_eq trace, Checker.finish]

/-! ## Calls of a unifier -/

namespace Unify

/-- Unify two types or two rows under a substitution. -/
def unify (s : Subst) : Equation → UnifyM Subst
  | .types a b => types s a b
  | .rows a b => rows s a b

/-- The answers of a unifier to as many calls as are asked for, and the unifier after them. Each
call is chosen by the answers so far, and a failure does not end the sequence. -/
def converse (next : List (Except UnifyError Subst) → Subst × Equation) (u : Unifier) :
    Nat → List (Except UnifyError Subst) × Unifier
  | 0 => ([], u)
  | n + 1 =>
    let (answers, u) := converse next u n
    let (s, eq) := next answers
    match unify s eq u with
    | .ok s u => (answers ++ [.ok s], u)
    | .error e u => (answers ++ [.error e], u)

theorem converse_untraced (next : List (Except UnifyError Subst) → Subst × Equation) (u : Unifier)
    (n : Nat) :
    converse next u.untraced n = ((converse next u n).1, (converse next u n).2.untraced) := by
  have hunify (s : Subst) (eq : Equation) : Commutes Unifier.untraced (unify s eq) := by
    cases eq with
    | types a b => exact (Stepwise.solve s _).untraced
    | rows a b => exact (Stepwise.solveRows s _ _).untraced
  induction n with
  | zero => rfl
  | succ n ih =>
    simp only [converse, ih, hunify _ _ _]
    cases unify (next (converse next u n).1).1 (next (converse next u n).1).2
      (converse next u n).2 <;> rfl

end Unify

/-- Tracing never changes a result. Up to its traces, the report on a module with tracing is the one
without. A unifier gives the same answers to a sequence of calls with and without tracing, and the
variables it would draw next are the same. -/
theorem tracing_changes_only_traces (m : Module) (u : Unifier)
    (next : List (Except UnifyError Subst) → Subst × Equation) (n : Nat) :
    { m.check true with traces := [] } = m.check false ∧
    (Unify.converse next { u with isTracing := true } n).1 =
      (Unify.converse next { u with isTracing := false } n).1 ∧
    (Unify.converse next { u with isTracing := true } n).2.fresh.typeVar.1 =
      (Unify.converse next { u with isTracing := false } n).2.fresh.typeVar.1 ∧
    (Unify.converse next { u with isTracing := true } n).2.fresh.effectVar.1 =
      (Unify.converse next { u with isTracing := false } n).2.fresh.effectVar.1 := by
  have hleft := (Unify.converse_untraced next { u with isTracing := true } n).symm.trans
    (Unify.converse_untraced next { u with isTracing := false } n)
  obtain ⟨hanswers, hfresh⟩ := Prod.mk.inj hleft
  have hfresh := (Unifier.mk.inj hfresh).1
  refine ⟨?_, hanswers, congrArg (·.typeVar.1) hfresh, congrArg (·.effectVar.1) hfresh⟩
  have htraces : (m.check false).traces = [] := rfl
  rw [m.check_eq true, m.check_eq false, htraces]

end RowTyping
