import RowTyping.Infer.Declared
import RowTyping.Signature

/-!
# The state of a check

Checking a module first declares its types, effects, traits and implementations, then infers the
definitions without a signature and last checks those with one. `Checker` collects what is known and
what is to be reported.
-/

namespace RowTyping

/-- A definition that is to be checked against a declared scheme. -/
structure DeclaredTask where
  /-- The name under which it is reported. -/
  label : String
  /-- The definition. -/
  definition : Definition
  /-- The declared scheme. -/
  scheme : Scheme
  /-- The requirements the definition may make. -/
  allowed : List Given
  /-- Whether its signature is part of the report. -/
  isReported : Bool
deriving Repr, Inhabited

/-- What happened while a binding was checked. -/
structure BindingEvents where
  /-- The binding, or the names of several that were inferred together. -/
  binding : String
  /-- The events of unification. -/
  unify : Array UnifyEvent
  /-- The uses of inference rules. -/
  infer : Array InferEvent
deriving Repr, Inhabited

/-- The trace of a binding. -/
structure BindingTrace where
  /-- The binding, or the names of several that were inferred together. -/
  binding : String
  /-- The steps of unification. -/
  unify : List UnifyStep
  /-- The steps of inference. -/
  infer : List InferStep
deriving DecidableEq, Repr, Inhabited

/-- Show events as a trace. -/
def BindingEvents.trace (events : BindingEvents) : BindingTrace where
  binding := events.binding
  unify := UnifyStep.ofEvents events.unify.toList
  infer := events.infer.toList.map InferEvent.step

/-- What is known and what is to be reported about a module. -/
structure Checker where
  /-- The variables of declarations and the pool all inferences draw from. -/
  fresh : Fresh := { supply := .pooled }
  /-- The declared types, traits and effects. -/
  registry : Registry := {}
  /-- The types of global names. -/
  env : Env := {}
  /-- The signatures to report. -/
  signatures : List Signature := []
  /-- The diagnostics to report. -/
  diagnostics : List Diagnostic := []
  /-- The names that failed, in increasing order. -/
  failed : List String := []
  /-- The definitions whose type is to be inferred. -/
  inferred : List Definition := []
  /-- The definitions to check against a declared scheme. -/
  declared : List DeclaredTask := []
  /-- The obligations that implementations met, with the binding they belong to. -/
  resolutions : List (String × Resolution) := []
  /-- What happened while each binding was checked. -/
  events : List BindingEvents := []

namespace Checker

/-- Report a diagnostic. -/
def report (c : Checker) (d : Diagnostic) : Checker :=
  { c with diagnostics := c.diagnostics ++ [d] }

/-- Report a malformed declaration. -/
def declarationError (c : Checker) (message : String) (span : Span) : Checker :=
  c.report { severity := .error, category := .declaration, message, location := span.inSource? }

/-- Note that uses of a name fail. -/
def markFailed (c : Checker) (name : String) : Checker :=
  { c with failed := Sorted.insert name c.failed }

/-- Report that a binding failed. -/
def bindingFailed (c : Checker) (name : String) (e : TypingError) : Checker :=
  (c.report (e.toDiagnostic name)).markFailed name

/-- Report a name that already has a meaning. -/
def duplicate (c : Checker) (name : String) (span : Span) : Checker :=
  c.declarationError s!"`{name}` is defined more than once" span

/-- Give a global name its type. -/
def bindGlobal (c : Checker) (name : String) (σ : Scheme) : Checker :=
  { c with env := c.env.bindGlobal name σ }

/-- Report the signature of a name. -/
def addSignature (c : Checker) (name : String) (σ : Scheme) (span : Span) : Checker :=
  { c with signatures := c.signatures ++ [.ofScheme name σ span] }

/-- Draw a type variable. -/
def freshTypeVar (c : Checker) : TypeVar × Checker :=
  let (v, fresh) := c.fresh.typeVar
  (v, { c with fresh })

/-- Resolve written types in a scope. Variables drawn stay drawn if this fails. -/
def resolve {α : Type} (c : Checker) (scope : TypeScope) (act : ResolveM α) :
    Except TypingError (α × TypeScope) × Checker :=
  match act.run { fresh := c.fresh, scope } with
  | .ok a r => (.ok (a, r.scope), { c with fresh := r.fresh })
  | .error e r => (.error e, { c with fresh := r.fresh })

end Checker

end RowTyping
