import RowTyping.Json.Basic
import RowTyping.Syntax.Module

/-!
# Modules from JSON

Each reader takes a nesting budget: entering an array or an object spends one level, and with no
level left nothing can be entered. Records are objects or arrays of their fields, and a choice is an
object whose only key names the alternative; an alternative without content may be written as its
name alone.
-/

namespace RowTyping

namespace Decode

/-- Read a string. It spends no level. -/
def text (_ : Nat) (j : Json) : Option String :=
  j.string?

/-- Read an integer of 32 bits. -/
def uint32 : Json → Option UInt32
  | .int (.ofNat n) => if n < UInt32.size then some n.toUInt32 else none
  | _ => none

/-- Read an integer of 64 bits. -/
def int64 : Json → Option Int64
  | .int n => if Int64.minValue.toInt ≤ n ∧ n ≤ Int64.maxValue.toInt then some n.toInt64 else none
  | _ => none

/-- Read a floating point number, which may be written as an integer. -/
def float : Json → Option Float
  | .int n => some (Float.ofInt n)
  | .float x => some x
  | _ => none

/-- Read a truth value. -/
def bool : Json → Option Bool
  | .bool b => some b
  | _ => none

/-- Read a list. -/
def list {α : Type} (read : Nat → Json → Option α) : Nat → Json → Option (List α)
  | b + 1, .array items => items.mapM (read b)
  | _, _ => none

end Decode

open JsonRecord (nullable)

/-- Read a span. -/
def Span.ofJson? : Nat → Json → Option Span
  | 0, _ => none
  | _ + 1, j => do
    let r ← j.record? ["file", "start", "end"]
    return {
      file := ← Decode.uint32 (← r.required 0)
      start := ← Decode.uint32 (← r.required 1)
      stop := ← Decode.uint32 (← r.required 2) }

/-- Read a value with its span, which is synthetic if it is missing. -/
def Spanned.ofJson? {α : Type} (read : Nat → Json → Option α) : Nat → Json → Option (Spanned α)
  | 0, _ => none
  | b + 1, j => do
    let r ← j.record? ["node", "span"]
    return {
      node := ← read b (← r.required 0)
      span := ← r.withDefault 1 .synthetic (Span.ofJson? b) }

/-- Read a literal. -/
def Literal.ofJson? : Nat → Json → Option Literal
  | _, .string name => if name = "Unit" then some .unit else none
  | 0, _ => none
  | _ + 1, j => do
    match ← j.variant? with
    | ("Int", v) => return .int (← Decode.int64 v)
    | ("Float", v) => return .float (← Decode.float v)
    | ("Bool", v) => return .bool (← Decode.bool v)
    | ("String", v) => return .string (← v.string?)
    | ("Unit", .null) => return .unit
    | _ => none

/-- Read the effect part of a written function type. -/
def EffectExpr.ofJson? : Nat → Json → Option EffectExpr
  | _, .string name => if name = "Pure" then some .pure else none
  | 0, _ => none
  | b + 1, j => do
    match ← j.variant? with
    | ("Pure", .null) => return .pure
    | ("Var", v) => return .var (← v.string?)
    | ("Row", v) => rowOfJson? b v
    | _ => none
where
  /-- Read named effects and possibly a variable. -/
  rowOfJson? : Nat → Json → Option EffectExpr
    | 0, _ => none
    | b + 1, j => do
      let r ← j.record? ["effects", "rest"]
      return .row (← Decode.list Decode.text b (← r.required 0)) (← r.optional 1 Json.string?)

mutual

/-- Read a written type. -/
def TypeExpr.ofJson? : Nat → Json → Option TypeExpr
  | 0, _ => none
  | b + 1, j => do
    match ← j.variant? with
    | ("Named", v) => return .named (← v.string?)
    | ("Applied", v) => TypeExpr.appliedOfJson? b v
    | ("Function", v) => TypeExpr.functionOfJson? b v
    | ("Tuple", v) => return .tuple (← TypeExpr.listOfJson? b v)
    | _ => none

/-- Read a name with its arguments. -/
def TypeExpr.appliedOfJson? : Nat → Json → Option TypeExpr
  | b + 1, .array [name, args] => do
    return .applied (← name.string?) (← TypeExpr.listOfJson? b args)
  | _, _ => none

/-- Read a written function type. -/
def TypeExpr.functionOfJson? : Nat → Json → Option TypeExpr
  | 0, _ => none
  | b + 1, j => do
    let r ← j.record? ["params", "ret", "effect"]
    return .function (← TypeExpr.listOfJson? b (← r.required 0))
      (← TypeExpr.ofJson? b (← r.required 1)) (← EffectExpr.ofJson? b (← r.required 2))

/-- Read a list of written types. -/
def TypeExpr.listOfJson? : Nat → Json → Option (List TypeExpr)
  | b + 1, .array items => items.mapM fun j => TypeExpr.ofJson? b j
  | _, _ => none

end

/-- Read a written type with its span. -/
def TypeExpr.spannedOfJson? : Nat → Json → Option (Spanned TypeExpr) :=
  Spanned.ofJson? TypeExpr.ofJson?

mutual

/-- Read a pattern. -/
def Pattern.ofJson? : Nat → Json → Option Pattern
  | 0, _ => none
  | b + 1, j => do
    let r ← j.record? ["node", "span"]
    Pattern.nodeOfJson? b (← r.withDefault 1 .synthetic (Span.ofJson? b)) (← r.required 0)

/-- Read a pattern that stands at a span. -/
def Pattern.nodeOfJson? : Nat → Span → Json → Option Pattern
  | _, span, .string name => if name = "Wildcard" then some (.wildcard span) else none
  | 0, _, _ => none
  | b + 1, span, j => do
    match ← j.variant? with
    | ("Wildcard", .null) => return .wildcard span
    | ("Var", v) => return .var span (← v.string?)
    | ("Lit", v) => return .lit span (← Literal.ofJson? b v)
    | ("Constructor", v) => Pattern.constructorOfJson? b span v
    | ("Tuple", v) => return .tuple span (← Pattern.listOfJson? b v)
    | _ => none

/-- Read a constructor pattern. -/
def Pattern.constructorOfJson? : Nat → Span → Json → Option Pattern
  | 0, _, _ => none
  | b + 1, span, j => do
    let r ← j.record? ["name", "args"]
    return .constructor span (← (← r.required 0).string?)
      (← Pattern.listOfJson? b (← r.required 1))

/-- Read a list of patterns. -/
def Pattern.listOfJson? : Nat → Json → Option (List Pattern)
  | b + 1, .array items => items.mapM fun j => Pattern.ofJson? b j
  | _, _ => none

end

mutual

/-- Read an expression. -/
def Expr.ofJson? : Nat → Json → Option Expr
  | 0, _ => none
  | b + 1, j => do
    let r ← j.record? ["node", "span"]
    Expr.nodeOfJson? b (← r.withDefault 1 .synthetic (Span.ofJson? b)) (← r.required 0)

/-- Read an expression that stands at a span. -/
def Expr.nodeOfJson? : Nat → Span → Json → Option Expr
  | 0, _, _ => none
  | b + 1, span, j => do
    match ← j.variant? with
    | ("Lit", v) => return .lit span (← Literal.ofJson? b v)
    | ("Var", v) => return .var span (← v.string?)
    | ("Lambda", v) => Expr.lambdaOfJson? b span v
    | ("Call", v) => Expr.callOfJson? b span v
    | ("Let", v) => Expr.letOfJson? b span v
    | ("If", v) => Expr.condOfJson? b span v
    | ("Match", v) => Expr.casesOfJson? b span v
    | ("Annotated", v) => Expr.ascribeOfJson? b span v
    | ("Tuple", v) => return .tuple span (← Expr.listOfJson? b v)
    | _ => none

/-- Read an anonymous function. -/
def Expr.lambdaOfJson? : Nat → Span → Json → Option Expr
  | 0, _, _ => none
  | b + 1, span, j => do
    let r ← j.record? ["params", "body"]
    return .lambda span (← Pattern.listOfJson? b (← r.required 0))
      (← Expr.ofJson? b (← r.required 1))

/-- Read a call. -/
def Expr.callOfJson? : Nat → Span → Json → Option Expr
  | 0, _, _ => none
  | b + 1, span, j => do
    let r ← j.record? ["func", "args"]
    return .call span (← Expr.ofJson? b (← r.required 0)) (← Expr.listOfJson? b (← r.required 1))

/-- Read a local definition. -/
def Expr.letOfJson? : Nat → Span → Json → Option Expr
  | 0, _, _ => none
  | b + 1, span, j => do
    let r ← j.record? ["pattern", "annotation", "value", "body"]
    return .letIn span (← Pattern.ofJson? b (← r.required 0))
      (← r.optional 1 (TypeExpr.spannedOfJson? b)) (← Expr.ofJson? b (← r.required 2))
      (← Expr.ofJson? b (← r.required 3))

/-- Read a choice by a condition. -/
def Expr.condOfJson? : Nat → Span → Json → Option Expr
  | 0, _, _ => none
  | b + 1, span, j => do
    let r ← j.record? ["condition", "then_branch", "else_branch"]
    return .cond span (← Expr.ofJson? b (← r.required 0)) (← Expr.ofJson? b (← r.required 1))
      (← Expr.ofJson? b (← r.required 2))

/-- Read a choice by patterns. -/
def Expr.casesOfJson? : Nat → Span → Json → Option Expr
  | 0, _, _ => none
  | b + 1, span, j => do
    let r ← j.record? ["scrutinee", "arms"]
    return .cases span (← Expr.ofJson? b (← r.required 0)) (← Expr.armsOfJson? b (← r.required 1))

/-- Read an expression with a stated type. -/
def Expr.ascribeOfJson? : Nat → Span → Json → Option Expr
  | 0, _, _ => none
  | b + 1, span, j => do
    let r ← j.record? ["expr", "annotation"]
    return .ascribe span (← Expr.ofJson? b (← r.required 0))
      (← TypeExpr.spannedOfJson? b (← r.required 1))

/-- Read a list of expressions. -/
def Expr.listOfJson? : Nat → Json → Option (List Expr)
  | b + 1, .array items => items.mapM fun j => Expr.ofJson? b j
  | _, _ => none

/-- Read the arms of a choice by patterns. -/
def Expr.armsOfJson? : Nat → Json → Option (List (Pattern × Expr))
  | b + 1, .array items => items.mapM fun j => Expr.armOfJson? b j
  | _, _ => none

/-- Read an arm. -/
def Expr.armOfJson? : Nat → Json → Option (Pattern × Expr)
  | 0, _ => none
  | b + 1, j => do
    let r ← j.record? ["pattern", "body"]
    return (← Pattern.ofJson? b (← r.required 0), ← Expr.ofJson? b (← r.required 1))

end

/-- Read a name with its span. -/
def Spanned.nameOfJson? : Nat → Json → Option (Spanned String) :=
  Spanned.ofJson? Decode.text

/-- Read a requirement. -/
def Bound.ofJson? : Nat → Json → Option Bound
  | 0, _ => none
  | b + 1, j => do
    let r ← j.record? ["trait_name", "type_var"]
    return {
      traitName := ← Spanned.nameOfJson? b (← r.required 0)
      typeVar := ← Spanned.nameOfJson? b (← r.required 1) }

/-- Read a definition. -/
def Definition.ofJson? : Nat → Json → Option Definition
  | 0, _ => none
  | b + 1, j => do
    let r ← j.record? ["name", "params", "annotation", "given", "body", "span"]
    return {
      name := ← Spanned.nameOfJson? b (← r.required 0)
      params := ← r.withDefault 1 [] (Pattern.listOfJson? b)
      declared := ← r.withDefault 2 none (nullable (TypeExpr.spannedOfJson? b))
      given := ← r.withDefault 3 [] (Decode.list Bound.ofJson? b)
      body := ← Expr.ofJson? b (← r.required 4)
      span := ← r.withDefault 5 .synthetic (Span.ofJson? b) }

/-- Read a constructor with its fields. -/
def Variant.ofJson? : Nat → Json → Option Variant
  | 0, _ => none
  | b + 1, j => do
    let r ← j.record? ["name", "fields"]
    return {
      name := ← Spanned.nameOfJson? b (← r.required 0)
      fields := ← r.withDefault 1 [] (TypeExpr.listOfJson? b) }

/-- Read a data type. -/
def DataDecl.ofJson? : Nat → Json → Option DataDecl
  | 0, _ => none
  | b + 1, j => do
    let r ← j.record? ["name", "params", "variants"]
    return {
      name := ← Spanned.nameOfJson? b (← r.required 0)
      params := ← r.withDefault 1 [] (Decode.list Decode.text b)
      variants := ← Decode.list Variant.ofJson? b (← r.required 2) }

/-- Read an operation of a trait. -/
def MethodDecl.ofJson? : Nat → Json → Option MethodDecl
  | 0, _ => none
  | b + 1, j => do
    let r ← j.record? ["name", "annotation", "given", "span"]
    return {
      name := ← Spanned.nameOfJson? b (← r.required 0)
      type := ← TypeExpr.spannedOfJson? b (← r.required 1)
      given := ← r.withDefault 2 [] (Decode.list Bound.ofJson? b)
      span := ← r.withDefault 3 .synthetic (Span.ofJson? b) }

/-- Read a trait. -/
def TraitDecl.ofJson? : Nat → Json → Option TraitDecl
  | 0, _ => none
  | b + 1, j => do
    let r ← j.record? ["name", "type_param", "methods"]
    return {
      name := ← Spanned.nameOfJson? b (← r.required 0)
      param := ← Spanned.nameOfJson? b (← r.required 1)
      methods := ← Decode.list MethodDecl.ofJson? b (← r.required 2) }

/-- Read an operation of an effect. -/
def OperationDecl.ofJson? : Nat → Json → Option OperationDecl
  | 0, _ => none
  | b + 1, j => do
    let r ← j.record? ["name", "params", "return_annotation", "span"]
    return {
      name := ← Spanned.nameOfJson? b (← r.required 0)
      params := ← r.withDefault 1 [] (TypeExpr.listOfJson? b)
      result := ← TypeExpr.ofJson? b (← r.required 2)
      span := ← r.withDefault 3 .synthetic (Span.ofJson? b) }

/-- Read an effect. -/
def EffectDecl.ofJson? : Nat → Json → Option EffectDecl
  | 0, _ => none
  | b + 1, j => do
    let r ← j.record? ["name", "operations"]
    return {
      name := ← Spanned.nameOfJson? b (← r.required 0)
      operations := ← Decode.list OperationDecl.ofJson? b (← r.required 1) }

/-- Read an implementation. -/
def ImplDecl.ofJson? : Nat → Json → Option ImplDecl
  | 0, _ => none
  | b + 1, j => do
    let r ← j.record? ["trait_name", "type_name", "methods"]
    return {
      traitName := ← Spanned.nameOfJson? b (← r.required 0)
      typeName := ← Spanned.nameOfJson? b (← r.required 1)
      methods := ← Decode.list Definition.ofJson? b (← r.required 2) }

/-- Read a declaration. -/
def Declaration.ofJson? : Nat → Json → Option Declaration
  | 0, _ => none
  | b + 1, j => do
    match ← j.variant? with
    | ("Function", v) => return .definition (← Definition.ofJson? b v)
    | ("TypeDef", v) => return .data (← DataDecl.ofJson? b v)
    | ("TraitDef", v) => return .trait (← TraitDecl.ofJson? b v)
    | ("EffectDecl", v) => return .effect (← EffectDecl.ofJson? b v)
    | ("ImplBlock", v) => return .impl (← ImplDecl.ofJson? b v)
    | _ => none

/-- Read a module. -/
def Module.ofJson? : Nat → Json → Option Module
  | 0, _ => none
  | b + 1, j => do
    let r ← j.record? ["declarations", "span"]
    return {
      declarations := ← Decode.list (Spanned.ofJson? Declaration.ofJson?) b (← r.required 0)
      span := ← r.withDefault 1 .synthetic (Span.ofJson? b) }

/-- The deepest nesting a module may have. -/
def Module.maxNesting : Nat := 127

end RowTyping
