import RowTyping.Proofs.Check.Declarations

/-!
# The inferences of a module

Which checks are made of a module, by which checkers and with which pools
(`Checker.componentRuns`, `Checker.taskRuns`). The inferences of a module are those of these checks,
and what it reports is what their outcomes hold (`Checker.gathers_inferComponents`,
`Checker.gathers_checkDeclared`).
-/

namespace RowTyping

/-- The inference of a body. -/
structure Inference where
  /-- The name under which the binding is reported. -/
  label : String
  /-- The definition whose body is inferred. -/
  definition : Definition
  /-- The state in which its inference starts. -/
  start : InferState
  /-- The state in which the inference of the binding ends, with those inferred together with it. -/
  final : InferState

namespace Component

/-- The state in which bodies are inferred, one after another until one fails. -/
def starts (reg : Registry) : List (Definition × Ty) → InferState → List (Definition × InferState)
  | [], _ => []
  | (d, t) :: rest, st =>
    (d, st) ::
      match (inferBody reg d t *> takeMember d t) st with
      | .ok _ st' => starts reg rest st'
      | .error _ _ => []

/-- The state that the inference of bodies leaves. -/
def finalState (reg : Registry) (members : List (Definition × Ty)) (st : InferState) : InferState :=
  leftState (inferBodies reg 0 members st)

/-- The inferences of the members of a component. -/
def inferences (reg : Registry) (env : Env) (pool : Pool) (ds : List Definition) : List Inference :=
  match bindMembers ds (InferState.start { supply := .pooled, pool } env) with
  | .ok members st => (starts reg members st).map fun (d, start) =>
      { label := d.name.node, definition := d, start, final := finalState reg members st }
  | .error _ _ => []

end Component

/-- The inference of a definition that is checked against its signature. -/
def DeclaredTask.inference (reg : Registry) (env : Env) (pool : Pool) (task : DeclaredTask) :
    Inference :=
  let start := InferState.start { supply := .pooled, pool } env
  { label := task.label
    definition := task.definition
    start
    final := leftState (Infer.checkDeclared reg task.definition task.scheme task.allowed start) }

/-! ## The checks of a module -/

/-- The check of a subject. -/
structure Run (α : Type) where
  /-- The checker that makes the check. -/
  checker : Checker
  /-- The pool that the check gets. -/
  pool : Pool
  /-- What is checked. -/
  subject : α

/-- What a function gives for a subject, with the pool and with what the checker knows. -/
def Run.on {α β : Type} (r : Run α) (f : Registry → Env → Pool → α → β) : β :=
  f r.checker.registry r.checker.env r.pool r.subject

namespace Checker

/-- Checks that a checker makes in turn, each with the pool the one before left. -/
def runs {α : Type} (c : Checker) (check : Registry → Env → Pool → α → Outcome × Pool) :
    Pool → List α → List (Run α)
  | _, [] => []
  | pool, a :: as => ⟨c, pool, a⟩ :: c.runs check (check c.registry c.env pool a).2 as

/-- The checker after checks that it makes in turn. -/
def afterRuns {α : Type} (check : Registry → Env → Pool → α → Outcome × Pool) (isInferred : Bool)
    (c : Checker) (as : List α) : Checker :=
  let (outcomes, pool) := runAll (check c.registry c.env) c.fresh.pool as
  outcomes.foldl (absorb isInferred) (c.setPool pool)

/-- The checks of a wave. -/
def waveRuns (c : Checker) (wave : List (List Definition)) : List (Run (List Definition)) :=
  let (runnable, c) := c.runnableComponents wave
  c.runs Component.infer c.fresh.pool runnable

/-- The checks of several waves. -/
def componentRuns : Checker → List (List (List Definition)) → List (Run (List Definition))
  | _, [] => []
  | c, wave :: rest => c.waveRuns wave ++ (c.inferWave wave).componentRuns rest

/-- The checks of the definitions with a declared scheme. -/
def taskRuns (c : Checker) : List (Run DeclaredTask) :=
  let (runnable, c) := c.runnableTasks c.declared
  c.runs DeclaredTask.check c.fresh.pool runnable

end Checker

/-- The inferences of all bodies of a module. -/
def Module.inferences (m : Module) : List Inference :=
  let c := Checker.declareModule {} m
  (c.componentRuns (Checker.wavesOf c.inferred)).flatMap (·.on Component.inferences) ++
    c.inferComponents.taskRuns.map (·.on DeclaredTask.inference)

/-- The bodies of a module that are to be inferred, under the names of their bindings. -/
def Module.bodies (m : Module) : List (String × Definition) :=
  let c := Checker.declareModule {} m
  c.inferred.map (fun d => (d.name.node, d)) ++ c.declared.map
    fun task => (task.label, task.definition)

/-! ## Diagnostics -/

/-- What an outcome adds to the diagnostics. -/
def Outcome.diagnostics (o : Outcome) : List Diagnostic :=
  o.failures.map (fun f => f.2.toDiagnostic f.1) ++ o.warnings

namespace Checker

variable {c : Checker} {α : Type} {check : Registry → Env → Pool → α → Outcome × Pool}

/-- Outcomes are those of the checks, one by one. -/
theorem runAll_fst (pool : Pool) (as : List α) :
    (runAll (check c.registry c.env) pool as).1 =
      (c.runs check pool as).map fun r => (r.on check).1 := by
  induction as generalizing pool with
  | nil => rfl
  | cons a as ih => simp [runAll, runs, ih, Run.on]

/-- Everything is checked, in the given order. -/
theorem map_subject_runs (c : Checker) (check : Registry → Env → Pool → α → Outcome × Pool)
    (pool : Pool) (as : List α) : (c.runs check pool as).map (·.subject) = as := by
  induction as generalizing pool with
  | nil => rfl
  | cons a as ih => simp [runs, ih]

theorem of_mem_runs {pool : Pool} {as : List α} {r : Run α} (h : r ∈ c.runs check pool as) :
    r.checker = c ∧ r.subject ∈ as := by
  induction as generalizing pool with
  | nil => cases h
  | cons a as ih =>
    rcases List.mem_cons.mp h with rfl | h
    · exact ⟨rfl, .head _⟩
    · exact (ih h).imp_right (.tail _)

theorem diagnostics_foldl_absorbScheme (isInferred : Bool) (c : Checker)
    (schemes : List (String × Scheme × Span)) :
    (schemes.foldl (absorbScheme isInferred) c).diagnostics = c.diagnostics := by
  induction schemes generalizing c with
  | nil => rfl
  | cons entry schemes ih =>
    rw [List.foldl_cons, ih]
    cases isInferred <;> rfl

theorem diagnostics_absorb (isInferred : Bool) (c : Checker) (o : Outcome) :
    (absorb isInferred c o).diagnostics = c.diagnostics ++ o.diagnostics := by
  rw [absorb, foldl_bindingFailed]
  simp [diagnostics_foldl_absorbScheme, Outcome.diagnostics]

theorem diagnostics_foldl_absorb (isInferred : Bool) (c : Checker) (os : List Outcome) :
    (os.foldl (absorb isInferred) c).diagnostics = c.diagnostics ++ os.flatMap (·.diagnostics) := by
  induction os generalizing c with
  | nil => simp
  | cons o os ih =>
    rw [List.foldl_cons, ih, diagnostics_absorb, List.append_assoc, List.flatMap_cons]

/-- Checks that run in turn add the diagnostics of their outcomes. -/
theorem diagnostics_afterRuns (check : Registry → Env → Pool → α → Outcome × Pool)
    (isInferred : Bool) (c : Checker) (as : List α) :
    (afterRuns check isInferred c as).diagnostics =
      c.diagnostics ++
        (c.runs check c.fresh.pool as).flatMap fun r => (r.on check).1.diagnostics := by
  rw [afterRuns, diagnostics_foldl_absorb, runAll_fst, List.flatMap_map]
  rfl

end Checker

end RowTyping
