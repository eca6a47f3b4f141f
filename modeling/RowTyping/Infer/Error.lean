import RowTyping.Diagnostic
import RowTyping.Types.Printer

/-!
# Typing errors

Why a definition fails to check, as causes with their types and places, and the wording of each.
-/

namespace RowTyping

/-- What a constraint between types or rows comes from. -/
inductive Reason where
  /-- An argument must have the type of its parameter; positions count from zero. -/
  | argument (position : Nat)
  /-- What is called must be a function. -/
  | calledValue
  /-- The effects of a call must be allowed where it stands. -/
  | callEffects
  /-- A condition must be a truth value. -/
  | ifCondition
  /-- Both branches must have one type. -/
  | ifBranches
  /-- All arms must have one type. -/
  | matchArms
  /-- A pattern must fit the value it is matched with. -/
  | patternMatch
  /-- An expression must have its stated type. -/
  | typeAscription
  /-- The value of a local definition must have its stated type. -/
  | letType
  /-- A definition must have its declared type. -/
  | declaredSignature
  /-- A top-level value must have no effects. -/
  | topLevelValue
  /-- A recursive use must agree with the definition. -/
  | recursion
  /-- A scheme requires a trait of the types it is used at. -/
  | traitBound (traitName : String)
deriving DecidableEq, Repr, Inhabited

/-- The place and the reason of a constraint. -/
structure Origin where
  /-- Where the constraint arises. -/
  span : Span
  /-- Why it arises. -/
  reason : Reason
deriving DecidableEq, Repr, Inhabited

/-- Why a definition fails to check. -/
inductive TypingError where
  /-- Two types cannot be made equal; `detail` tells the innermost conflict if it is another. -/
  | mismatch (expected actual : Ty) (reason : Reason) (detail : Option String) (span : Span)
  /-- Two rows cannot be made equal. -/
  | rowMismatch (expected actual : Row) (reason : Reason) (span : Span)
  /-- A variable would have to equal a type that contains it. -/
  | occurs (v : TypeVar) (type : Ty) (span : Span)
  /-- A trait has no implementation for a type. -/
  | unresolvedTrait (traitName : String) (type : Ty) (span : Span)
  /-- A wrong number of arguments. -/
  | arity (what : String) (expected actual : Nat) (span : Span)
  /-- An arm has another type than the first one. -/
  | armMismatch (first other : Ty) (firstSpan otherSpan : Span)
  /-- A variable that is not bound. -/
  | unboundVariable (name : String) (span : Span)
  /-- A type that is not declared. -/
  | unknownType (name : String) (span : Span)
  /-- An effect that is not declared. -/
  | unknownEffect (name : String) (span : Span)
  /-- A constructor that is not declared. -/
  | unknownConstructor (name : String) (span : Span)
  /-- A wrong number of type parameters. -/
  | kind (name : String) (expected actual : Nat) (span : Span)
  /-- A requirement on a type that the signature does not determine. -/
  | ambiguousTrait (traitName : String) (type : Ty) (span : Span)
  /-- A definition that is less general than its declared signature. -/
  | tooGeneral (declared inferred : String) (span : Span)
  /-- A requirement that the declared signature does not list. -/
  | missingGiven (requirement : String) (span : Span)
  /-- A use of a definition that failed. -/
  | dependencyFailed (dependency : String) (span : Span)
deriving Repr, Inhabited

/-- A count with its noun, in the plural unless it is one. -/
def countOf (n : Nat) (noun : String) : String :=
  if n = 1 then s!"1 {noun}" else s!"{n} {noun}s"

namespace TypingError

/-- A count of supplied arguments with its verb. -/
def suppliedCount (n : Nat) : String :=
  if n = 1 then "1 was" else s!"{n} were"

/-- The wording of a conflict between two types. The names of variables are shared by both. -/
def mismatchMessage (expected actual : Ty) (reason : Reason) : String :=
  let (expected, actual) := expected.renderPair actual
  match reason with
  | .argument position =>
    s!"type mismatch in argument {position + 1}: expected `{expected}`, got `{actual}`"
  | .calledValue => s!"cannot call a value of type `{expected}` as `{actual}`"
  | .ifCondition => s!"if condition must be `Bool`, got `{actual}`"
  | .ifBranches => s!"if and else branches have different types: `{expected}` vs `{actual}`"
  | .patternMatch =>
    s!"pattern of type `{actual}` cannot match a value of type `{expected}`"
  | .typeAscription => s!"type ascription mismatch: expected `{expected}`, got `{actual}`"
  | .letType =>
    s!"let annotation mismatch: declared `{expected}`, but the value has type `{actual}`"
  | .declaredSignature =>
    s!"definition does not match its signature: declared `{expected}`, " ++
      s!"but the body has type `{actual}`"
  | .recursion =>
    s!"recursive use expects `{expected}`, but the definition has type `{actual}`"
  | .callEffects | .matchArms | .topLevelValue | .traitBound _ =>
    s!"type mismatch: expected `{expected}`, got `{actual}`"

/-- The wording of a conflict between two rows. -/
def rowMismatchMessage (expected actual : Row) (reason : Reason) : String :=
  let (expected, actual) := expected.renderPair actual
  match reason with
  | .topLevelValue =>
    s!"top-level value must be `pure`, but evaluating it has effects `{actual}`"
  | .callEffects => s!"call performs `{actual}`, which is not allowed here (`{expected}`)"
  | _ => s!"effect mismatch: expected `{expected}`, got `{actual}`"

/-- The wording of an error. -/
def message : TypingError → String
  | .mismatch expected actual reason _ _ => mismatchMessage expected actual reason
  | .rowMismatch expected actual reason _ => rowMismatchMessage expected actual reason
  | .occurs v type _ =>
    let (left, right) := (Ty.var v).renderPair type
    s!"infinite type: `{left}` would have to equal `{right}`"
  | .unresolvedTrait traitName type _ =>
    s!"no implementation of `{traitName}` for `{type.renderCanonical}`"
  | .arity what expected actual _ =>
    let wanted := countOf expected "argument"
    s!"{what} expects {wanted} but {suppliedCount actual} supplied"
  | .armMismatch first other _ _ =>
    let (first, other) := first.renderPair other
    s!"match arms have different types: `{first}` vs `{other}`"
  | .unboundVariable name _ => s!"unbound variable `{name}`"
  | .unknownType name _ => s!"unknown type `{name}`"
  | .unknownEffect name _ => s!"unknown effect `{name}`"
  | .unknownConstructor name _ => s!"unknown constructor `{name}`"
  | .kind name expected actual _ =>
    let wanted := countOf expected "type parameter"
    s!"`{name}` takes {wanted} but is used with {actual}"
  | .ambiguousTrait traitName type _ =>
    s!"ambiguous `{traitName}` requirement on `{type.renderCanonical}`: " ++
      "the type is not determined by the signature"
  | .tooGeneral declared inferred _ =>
    s!"the declared signature is more general than the definition: `{declared}` " ++
      s!"is declared, but the body only has `{inferred}`"
  | .missingGiven requirement _ =>
    s!"the body requires `{requirement}`, which is not listed in `given`"
  | .dependencyFailed dependency _ =>
    s!"depends on `{dependency}`, which failed to type check"

/-- Where an error is reported. -/
def span : TypingError → Span
  | .mismatch _ _ _ _ span | .rowMismatch _ _ _ span | .occurs _ _ span
  | .unresolvedTrait _ _ span | .arity _ _ _ span | .armMismatch _ _ _ span
  | .unboundVariable _ span | .unknownType _ span | .unknownEffect _ span
  | .unknownConstructor _ span | .kind _ _ _ span | .ambiguousTrait _ _ span
  | .tooGeneral _ _ span | .missingGiven _ span | .dependencyFailed _ span => span

/-- The category an error is reported under. -/
def category : TypingError → Category
  | .mismatch .. | .rowMismatch .. => .typeMismatch
  | .occurs .. => .occursCheck
  | .unresolvedTrait .. => .unresolvedTrait
  | .arity .. => .arityMismatch
  | .armMismatch .. => .armMismatch
  | .unboundVariable .. | .unknownType .. | .unknownEffect .. | .unknownConstructor .. =>
    .undefinedName
  | .kind .. => .kindMismatch
  | .ambiguousTrait .. => .ambiguousTrait
  | .tooGeneral .. => .signatureTooGeneral
  | .missingGiven .. => .missingGiven
  | .dependencyFailed .. => .dependencyFailed

/-- The remarks on other places. -/
def notes : TypingError → List Note
  | .armMismatch first other firstSpan _ =>
    let (first, _) := first.renderPair other
    firstSpan.inSource?.toList.map (⟨·, s!"first arm has type `{first}`"⟩)
  | _ => []

/-- What could be done about an error. -/
def help : TypingError → String
  | .armMismatch first other _ _ =>
    let (_, other) := first.renderPair other
    s!"every arm must produce the same type; this arm produces `{other}`"
  | .mismatch _ _ _ (some detail) _ => s!"the conflict: {detail}"
  | .missingGiven requirement _ => s!"add `given {requirement}` to the signature"
  | e => e.category.fix

/-- The report of an error in a binding. -/
def toDiagnostic (e : TypingError) (binding : String) : Diagnostic where
  severity := .error
  category := e.category
  message := e.message
  binding := some binding
  location := e.span.inSource?
  notes := e.notes
  help := some e.help

end TypingError

end RowTyping
