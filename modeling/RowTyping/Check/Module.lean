import RowTyping.Check.Component
import RowTyping.Check.Declare
import RowTyping.Check.Dependencies
import RowTyping.Syntax.FreeNames

/-!
# Checking a module

Definitions without a signature are inferred in dependency waves, then definitions with one are
checked. A definition that refers to a failed one is not looked at and fails too. `Module.check`
gives the report: signatures in the order of names, and everything else in the order it arose.
-/

namespace RowTyping

/-- The result of checking a module. -/
structure Report where
  /-- The signatures of trait operations and of definitions that are in order, by name. -/
  signatures : List Signature
  /-- The diagnostics. -/
  diagnostics : List Diagnostic
  /-- The names that failed, in increasing order. -/
  failed : List String
  /-- The obligations that implementations met, with the binding they belong to. -/
  resolutions : List (String × Resolution)
  /-- The traces of the bindings, if they were asked for. -/
  traces : List BindingTrace
deriving DecidableEq, Repr, Inhabited

namespace Report

/-- The number of errors. -/
def errorCount (r : Report) : Nat :=
  r.diagnostics.countP (·.isError)

/-- Whether there are errors. -/
def hasErrors (r : Report) : Bool :=
  r.diagnostics.any (·.isError)

/-- The signature of a name. -/
def signature? (r : Report) (name : String) : Option Signature :=
  r.signatures.find? (·.name = name)

/-- Write all signatures, each on lines of its own. -/
def render (r : Report) : String :=
  String.join (r.signatures.map fun s => s.render ++ "\n")

end Report

namespace Checker

/-- Report a scheme, and give the name its type if it was inferred. -/
def absorbScheme (isInferred : Bool) (c : Checker) (entry : String × Scheme × Span) : Checker :=
  let (name, σ, span) := entry
  let c := c.addSignature name σ span
  if isInferred then c.bindGlobal name σ else c

/-- Take over the outcome of a binding. -/
def absorb (isInferred : Bool) (c : Checker) (outcome : Outcome) : Checker :=
  let c := outcome.schemes.foldl (absorbScheme isInferred) c
  let c := outcome.failures.foldl (fun c (name, e) => c.bindingFailed name e) c
  { c with
    diagnostics := c.diagnostics ++ outcome.warnings
    resolutions := c.resolutions ++ outcome.resolutions
    events := c.events ++ [outcome.events] }

/-- Run checks in turn, each with the pool the one before left. -/
def runAll {α : Type} (check : Pool → α → Outcome × Pool) : Pool → List α → List Outcome × Pool
  | pool, [] => ([], pool)
  | pool, a :: as =>
    let (outcome, pool) := check pool a
    let (rest, pool) := runAll check pool as
    (outcome :: rest, pool)

/-- Keep the pool of all inferences. -/
def setPool (c : Checker) (pool : Pool) : Checker :=
  { c with fresh := { c.fresh with pool } }

/-- Let the inferences record what happens, or not. -/
def setTracing (c : Checker) (isTracing : Bool) : Checker :=
  c.setPool { c.fresh.pool with isTracing }

/-- The components that refer to no failed name; the members of the others fail. -/
def runnableComponents (c : Checker) : List (List Definition) → List (List Definition) × Checker
  | [] => ([], c)
  | ds :: rest =>
    match (ds.flatMap (·.freeNames)).find? (c.failed.contains ·) with
    | none =>
      let (runnable, c) := c.runnableComponents rest
      (ds :: runnable, c)
    | some dependency =>
      (ds.foldl (fun c d =>
        c.bindingFailed d.name.node
          (.dependencyFailed dependency d.name.span)) c).runnableComponents
        rest

/-- Infer the components of a wave. None of them sees the types of another. -/
def inferWave (c : Checker) (wave : List (List Definition)) : Checker :=
  let (runnable, c) := c.runnableComponents wave
  let (outcomes, pool) := runAll (Component.infer c.registry c.env) c.fresh.pool runnable
  outcomes.foldl (absorb true) (c.setPool pool)

/-- For each definition, the positions of those it refers to. -/
def dependencyGraph (ds : List Definition) : Dependencies.Graph :=
  let names := ds.map (·.name.node)
  ds.map fun d => d.freeNames.filterMap (names.idxOf? ·)

/-- Infer all definitions without a signature. -/
def inferComponents (c : Checker) : Checker :=
  let ds := c.inferred
  let waves := (Dependencies.waves (dependencyGraph ds)).map
    (·.map (·.filterMap (ds[·]?)))
  waves.foldl inferWave c

/-- The tasks that refer to no failed name; the others fail. -/
def runnableTasks (c : Checker) : List DeclaredTask → List DeclaredTask × Checker
  | [] => ([], c)
  | task :: rest =>
    let d := task.definition
    match d.freeNames.find? (c.failed.contains ·) with
    | none =>
      let (runnable, c) := c.runnableTasks rest
      (task :: runnable, c)
    | some dependency =>
      (c.bindingFailed task.label (.dependencyFailed dependency d.name.span)).runnableTasks rest

/-- Check all definitions with a declared scheme. -/
def checkDeclared (c : Checker) : Checker :=
  let (runnable, c) := c.runnableTasks c.declared
  let (outcomes, pool) := runAll (DeclaredTask.check c.registry c.env) c.fresh.pool runnable
  outcomes.foldl (absorb false) (c.setPool pool)

/-- The report on what was found, with traces if they are asked for. -/
def finish (c : Checker) (trace : Bool) : Report where
  signatures := c.signatures.mergeSort fun a b => a.name ≤ b.name
  diagnostics := c.diagnostics
  failed := c.failed
  resolutions := c.resolutions
  traces := if trace then c.events.map (·.trace) else []

end Checker

/-- Check a module. What happens during the inferences is recorded if traces are asked for. -/
def Module.check (m : Module) (trace : Bool) : Report :=
  let c : Checker := {}
  ((c.declareModule m).setTracing trace).inferComponents.checkDeclared.finish trace

end RowTyping
