import RowTyping.Syntax.Span

/-!
# Diagnostics

What a user is told about a module: a category with a stable code, the binding it belongs to, a
place, notes on other places and a help text. Types inside messages are already rendered.
-/

namespace RowTyping

/-- How grave a diagnostic is. Only errors make a binding fail. -/
inductive Severity where
  | error
  | warning
  | info
deriving DecidableEq, Repr, Inhabited

/-- The word a diagnostic of this severity starts with. -/
def Severity.name : Severity → String
  | .error => "error"
  | .warning => "warning"
  | .info => "info"

/-- The kinds of diagnostics. -/
inductive Category where
  /-- Two types or two rows that must agree do not. -/
  | typeMismatch
  /-- A type would have to contain itself. -/
  | occursCheck
  /-- A trait has no implementation for a type. -/
  | unresolvedTrait
  /-- A call or a constructor pattern has the wrong number of arguments. -/
  | arityMismatch
  /-- The arms of a choice have different types. -/
  | armMismatch
  /-- A name is used that nothing introduces. -/
  | undefinedName
  /-- A requirement is on a type that the signature does not determine. -/
  | ambiguousTrait
  /-- A definition is less polymorphic than its declared signature. -/
  | signatureTooGeneral
  /-- A definition has a requirement that its signature does not list. -/
  | missingGiven
  /-- A definition uses one that failed. -/
  | dependencyFailed
  /-- A choice does not cover every value. -/
  | nonExhaustive
  /-- A declaration is malformed. -/
  | declaration
  /-- A type constructor has the wrong number of parameters. -/
  | kindMismatch
deriving DecidableEq, Repr, Inhabited

namespace Category

/-- All categories, in the order of their codes. -/
def all : List Category :=
  [.typeMismatch, .occursCheck, .unresolvedTrait, .arityMismatch, .armMismatch, .undefinedName,
    .ambiguousTrait, .signatureTooGeneral, .missingGiven, .dependencyFailed, .nonExhaustive,
    .declaration, .kindMismatch]

/-- The name of a category. -/
def name : Category → String
  | .typeMismatch => "type_mismatch"
  | .occursCheck => "occurs_check"
  | .unresolvedTrait => "unresolved_trait"
  | .arityMismatch => "arity_mismatch"
  | .armMismatch => "pattern_arm_mismatch"
  | .undefinedName => "undefined_name"
  | .ambiguousTrait => "ambiguous_trait"
  | .signatureTooGeneral => "signature_too_general"
  | .missingGiven => "missing_given"
  | .dependencyFailed => "dependency_failed"
  | .nonExhaustive => "non_exhaustive"
  | .declaration => "declaration"
  | .kindMismatch => "kind_mismatch"

/-- The stable code of a category. -/
def code : Category → String
  | .typeMismatch => "E0001"
  | .occursCheck => "E0002"
  | .unresolvedTrait => "E0003"
  | .arityMismatch => "E0004"
  | .armMismatch => "E0005"
  | .undefinedName => "E0006"
  | .ambiguousTrait => "E0007"
  | .signatureTooGeneral => "E0008"
  | .missingGiven => "E0009"
  | .dependencyFailed => "E0010"
  | .nonExhaustive => "E0011"
  | .declaration => "E0012"
  | .kindMismatch => "E0013"

/-- A sentence that explains the category. -/
def description : Category → String
  | .typeMismatch => "Two types or effect rows that must agree do not."
  | .occursCheck => "A type would have to contain itself (infinite type)."
  | .unresolvedTrait => "No implementation of the trait exists for the type."
  | .arityMismatch => "A call or constructor pattern has the wrong number of arguments."
  | .armMismatch => "Match arms produce incompatible types."
  | .undefinedName => "A name is used that no declaration or binding introduces."
  | .ambiguousTrait =>
    "A trait obligation constrains a variable that never reaches the signature."
  | .signatureTooGeneral => "The definition is less polymorphic than its declared signature."
  | .missingGiven => "The definition needs a trait obligation its signature does not declare."
  | .dependencyFailed => "The definition uses another definition that failed."
  | .nonExhaustive => "A match does not cover every constructor of its scrutinee."
  | .declaration => "A type, trait, effect or impl declaration is malformed."
  | .kindMismatch => "A type constructor is used with the wrong number of parameters."

/-- The help that fits most diagnostics of the category. -/
def fix : Category → String
  | .typeMismatch => "Adjust the expression or the annotation so both sides agree."
  | .occursCheck => "Check for a value being passed to itself."
  | .unresolvedTrait => "Add an `impl` for the type or use a different type."
  | .arityMismatch => "Pass exactly as many arguments as the function takes."
  | .armMismatch => "Make every arm return the same type."
  | .undefinedName => "Define the missing name or fix the spelling."
  | .ambiguousTrait => "Annotate the expression so the type is determined."
  | .signatureTooGeneral => "Generalize the body or narrow the declared signature."
  | .missingGiven => "Add the obligation to the signature's `given` list."
  | .dependencyFailed => "Fix the errors reported for the dependency first."
  | .nonExhaustive => "Add an arm for each missing constructor, or a `_` arm."
  | .declaration => "Follow the help text to fix the declaration."
  | .kindMismatch => "Implement the trait for a constructor with the expected parameter count."

end Category

/-- A remark on a second place. -/
structure Note where
  /-- The place. -/
  location : Span
  /-- The remark. -/
  message : String
deriving DecidableEq, Repr, Inhabited

/-- A report on a module. -/
structure Diagnostic where
  /-- How grave it is. -/
  severity : Severity
  /-- Its kind. -/
  category : Category
  /-- What is wrong. -/
  message : String
  /-- The code that is shown; by default that of the category. -/
  code : Option String := some category.code
  /-- The top-level binding it belongs to. -/
  binding : Option String := none
  /-- Where it went wrong. -/
  location : Option Span := none
  /-- Remarks on other places. -/
  notes : List Note := []
  /-- What could be done. -/
  help : Option String := none
deriving DecidableEq, Repr, Inhabited

namespace Diagnostic

/-- Whether the diagnostic makes its binding fail. -/
def isError (d : Diagnostic) : Bool :=
  d.severity = .error

/-- The text of a diagnostic: a headline, the place, the notes and the help, a line each. -/
def render (d : Diagnostic) : String :=
  let code := d.code.elim "" fun code => s!"[{code}]"
  let binding := d.binding.elim "" fun name => s!" in `{name}`"
  let location := d.location.elim "" fun span => s!"\n  --> {span.render}"
  let notes := d.notes.map fun n => s!"\n  note: {n.message} ({n.location.render})"
  let help := d.help.elim "" fun text => s!"\n  help: {text}"
  s!"{d.severity.name}{code}{binding}: {d.message}{location}" ++ String.join notes ++ help

/-- The text of the first diagnostic, empty if there is none. -/
def renderFirst (ds : List Diagnostic) : String :=
  ds.head?.elim "" render

end Diagnostic

end RowTyping
