import RowTyping.Json.Basic
import RowTyping.Syntax.Module

/-!
# Modules to JSON

Every field is written, also those a reader would fill in.
-/

namespace RowTyping

/-- Write a value that may be missing. -/
def Json.ofOption {α : Type} (write : α → Json) : Option α → Json
  | none => .null
  | some a => write a

/-- Write a list. -/
def Json.ofList {α : Type} (write : α → Json) (as : List α) : Json :=
  .array (as.map write)

/-- Write an alternative of a choice with its content. -/
def Json.ofVariant (name : String) (content : Json) : Json :=
  .object [(name, content)]

open Json (ofOption ofList ofVariant)

/-- Write a span. -/
def Span.toJson (s : Span) : Json :=
  .object [("file", .int s.file.toNat), ("start", .int s.start.toNat), ("end", .int s.stop.toNat)]

/-- Write a value at a span. -/
def Span.wrap (span : Span) (node : Json) : Json :=
  .object [("node", node), ("span", span.toJson)]

/-- Write a value with its span. -/
def Spanned.toJson {α : Type} (write : α → Json) (s : Spanned α) : Json :=
  s.span.wrap (write s.node)

/-- Write a literal. -/
def Literal.toJson : Literal → Json
  | .int n => ofVariant "Int" (.int n.toInt)
  | .float x => ofVariant "Float" (.float x)
  | .bool b => ofVariant "Bool" (.bool b)
  | .string s => ofVariant "String" (.string s)
  | .unit => .string "Unit"

/-- Write the effect part of a written function type. -/
def EffectExpr.toJson : EffectExpr → Json
  | .pure => .string "Pure"
  | .var name => ofVariant "Var" (.string name)
  | .row effects rest =>
    ofVariant "Row"
      (.object [("effects", ofList .string effects), ("rest", ofOption .string rest)])

mutual

/-- Write a written type. -/
def TypeExpr.toJson : TypeExpr → Json
  | .named name => ofVariant "Named" (.string name)
  | .applied name args =>
    ofVariant "Applied" (.array [.string name, .array (TypeExpr.toJsonAll args)])
  | .function params result effect =>
    ofVariant "Function"
      (.object [("params", .array (TypeExpr.toJsonAll params)), ("ret", result.toJson),
        ("effect", effect.toJson)])
  | .tuple elems => ofVariant "Tuple" (.array (TypeExpr.toJsonAll elems))

/-- Write a list of written types. -/
def TypeExpr.toJsonAll : List TypeExpr → List Json
  | [] => []
  | a :: as => a.toJson :: TypeExpr.toJsonAll as

end

mutual

/-- Write a pattern. -/
def Pattern.toJson : Pattern → Json
  | .wildcard span => span.wrap (.string "Wildcard")
  | .var span name => span.wrap (ofVariant "Var" (.string name))
  | .lit span value => span.wrap (ofVariant "Lit" value.toJson)
  | .constructor span name args =>
    span.wrap (ofVariant "Constructor"
      (.object [("name", .string name), ("args", .array (Pattern.toJsonAll args))]))
  | .tuple span elems => span.wrap (ofVariant "Tuple" (.array (Pattern.toJsonAll elems)))

/-- Write a list of patterns. -/
def Pattern.toJsonAll : List Pattern → List Json
  | [] => []
  | p :: ps => p.toJson :: Pattern.toJsonAll ps

end

mutual

/-- Write an expression. -/
def Expr.toJson : Expr → Json
  | .lit span value => span.wrap (ofVariant "Lit" value.toJson)
  | .var span name => span.wrap (ofVariant "Var" (.string name))
  | .lambda span params body =>
    span.wrap (ofVariant "Lambda"
      (.object [("params", ofList Pattern.toJson params), ("body", body.toJson)]))
  | .call span callee args =>
    span.wrap (ofVariant "Call"
      (.object [("func", callee.toJson), ("args", .array (Expr.toJsonAll args))]))
  | .letIn span pattern stated value body =>
    span.wrap (ofVariant "Let"
      (.object [("pattern", pattern.toJson),
        ("annotation", ofOption (Spanned.toJson TypeExpr.toJson) stated),
        ("value", value.toJson), ("body", body.toJson)]))
  | .cond span condition onTrue onFalse =>
    span.wrap (ofVariant "If"
      (.object [("condition", condition.toJson), ("then_branch", onTrue.toJson),
        ("else_branch", onFalse.toJson)]))
  | .cases span scrutinee arms =>
    span.wrap (ofVariant "Match"
      (.object [("scrutinee", scrutinee.toJson), ("arms", .array (Expr.toJsonArms arms))]))
  | .ascribe span expr stated =>
    span.wrap (ofVariant "Annotated"
      (.object [("expr", expr.toJson),
        ("annotation", Spanned.toJson TypeExpr.toJson stated)]))
  | .tuple span elems => span.wrap (ofVariant "Tuple" (.array (Expr.toJsonAll elems)))

/-- Write a list of expressions. -/
def Expr.toJsonAll : List Expr → List Json
  | [] => []
  | e :: es => e.toJson :: Expr.toJsonAll es

/-- Write the arms of a choice by patterns. -/
def Expr.toJsonArms : List (Pattern × Expr) → List Json
  | [] => []
  | (p, e) :: arms =>
    .object [("pattern", p.toJson), ("body", e.toJson)] :: Expr.toJsonArms arms

end

/-- Write a name with its span. -/
def Spanned.nameToJson (name : Spanned String) : Json :=
  name.toJson .string

/-- Write a requirement. -/
def Bound.toJson (b : Bound) : Json :=
  .object [("trait_name", b.traitName.nameToJson), ("type_var", b.typeVar.nameToJson)]

/-- Write a definition. -/
def Definition.toJson (d : Definition) : Json :=
  .object [("name", d.name.nameToJson), ("params", ofList Pattern.toJson d.params),
    ("annotation", ofOption (Spanned.toJson TypeExpr.toJson) d.declared),
    ("given", ofList Bound.toJson d.given), ("body", d.body.toJson), ("span", d.span.toJson)]

/-- Write a constructor with its fields. -/
def Variant.toJson (v : Variant) : Json :=
  .object [("name", v.name.nameToJson), ("fields", ofList TypeExpr.toJson v.fields)]

/-- Write a data type. -/
def DataDecl.toJson (d : DataDecl) : Json :=
  .object [("name", d.name.nameToJson), ("params", ofList .string d.params),
    ("variants", ofList Variant.toJson d.variants)]

/-- Write an operation of a trait. -/
def MethodDecl.toJson (m : MethodDecl) : Json :=
  .object [("name", m.name.nameToJson), ("annotation", m.type.toJson TypeExpr.toJson),
    ("given", ofList Bound.toJson m.given), ("span", m.span.toJson)]

/-- Write a trait. -/
def TraitDecl.toJson (d : TraitDecl) : Json :=
  .object [("name", d.name.nameToJson), ("type_param", d.param.nameToJson),
    ("methods", ofList MethodDecl.toJson d.methods)]

/-- Write an operation of an effect. -/
def OperationDecl.toJson (o : OperationDecl) : Json :=
  .object [("name", o.name.nameToJson), ("params", ofList TypeExpr.toJson o.params),
    ("return_annotation", o.result.toJson), ("span", o.span.toJson)]

/-- Write an effect. -/
def EffectDecl.toJson (d : EffectDecl) : Json :=
  .object [("name", d.name.nameToJson), ("operations", ofList OperationDecl.toJson d.operations)]

/-- Write an implementation. -/
def ImplDecl.toJson (d : ImplDecl) : Json :=
  .object [("trait_name", d.traitName.nameToJson), ("type_name", d.typeName.nameToJson),
    ("methods", ofList Definition.toJson d.methods)]

/-- Write a declaration. -/
def Declaration.toJson : Declaration → Json
  | .definition d => ofVariant "Function" d.toJson
  | .data d => ofVariant "TypeDef" d.toJson
  | .trait d => ofVariant "TraitDef" d.toJson
  | .effect d => ofVariant "EffectDecl" d.toJson
  | .impl d => ofVariant "ImplBlock" d.toJson

/-- Write a module. -/
def Module.toJson (m : Module) : Json :=
  .object [("declarations", ofList (Spanned.toJson Declaration.toJson) m.declarations),
    ("span", m.span.toJson)]

end RowTyping
