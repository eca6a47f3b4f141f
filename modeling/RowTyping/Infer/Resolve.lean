import RowTyping.Infer.Error
import RowTyping.Registry.Basic
import RowTyping.Supply
import RowTyping.Syntax.Expr
import RowTyping.Text.Lowercase

/-!
# Resolving written types

A written type becomes a type in a scope of variable names. An open scope introduces a variable for
each new name, a closed one knows only its own. Names with a lowercase initial are variables; all
others must be primitive types, data types or effects that are declared.
-/

namespace RowTyping

/-- The variables that written types may mention by name. -/
structure TypeScope where
  /-- The type variables, in the order they were introduced. -/
  types : List (String × TypeVar) := []
  /-- The effect variables, in the order they were introduced. -/
  effects : List (String × EffectVar) := []
  /-- Whether a new name introduces a variable. -/
  isOpen : Bool
deriving DecidableEq, Repr, Inhabited

namespace TypeScope

/-- The scope without variables in which each new name introduces one. -/
def empty : TypeScope := { isOpen := true }

/-- The scope that knows only the given type variables. -/
def closed (types : List (String × TypeVar)) : TypeScope :=
  { types, isOpen := false }

/-- Add a type variable. -/
def insertType (scope : TypeScope) (name : String) (v : TypeVar) : TypeScope :=
  { scope with types := scope.types ++ [(name, v)] }

/-- Add an effect variable. -/
def insertEffect (scope : TypeScope) (name : String) (e : EffectVar) : TypeScope :=
  { scope with effects := scope.effects ++ [(name, e)] }

/-- The type variable with the given name. -/
def type? (scope : TypeScope) (name : String) : Option TypeVar :=
  Dict.lookup name scope.types

/-- The effect variable with the given name. -/
def effect? (scope : TypeScope) (name : String) : Option EffectVar :=
  Dict.lookup name scope.effects

/-- The names of all variables of the scope. -/
def names (scope : TypeScope) : VarNames where
  types := .ofList (scope.types.map Prod.swap)
  effects := .ofList (scope.effects.map Prod.swap)

/-- Quantify a type over all variables of the scope, in the order they were introduced. -/
def scheme (scope : TypeScope) (t : Ty) (givens : List Given) : Scheme where
  typeVars := scope.types.map (·.2)
  effectVars := scope.effects.map (·.2)
  givens
  names := scope.names
  type := t

end TypeScope

/-- What resolving a written type draws on and extends. -/
structure Resolver where
  /-- The source of fresh variables. -/
  fresh : Fresh
  /-- The variables known so far. -/
  scope : TypeScope

/-- A computation that resolves written types; variables drawn before a failure stay drawn. -/
abbrev ResolveM := EStateM TypingError Resolver

namespace Resolve

/-- The type variable with a name, introduced if it is new and the scope is open. -/
def typeVar (span : Span) (name : String) : ResolveM TypeVar := do
  let r ← get
  match r.scope.type? name with
  | some v => return v
  | none =>
    if r.scope.isOpen then
      let (v, fresh) := r.fresh.typeVar
      set { r with fresh, scope := r.scope.insertType name v }
      return v
    else throw (.unknownType name span)

/-- The effect variable with a name, introduced if it is new and the scope is open. -/
def effectVar (span : Span) (name : String) : ResolveM EffectVar := do
  let r ← get
  match r.scope.effect? name with
  | some e => return e
  | none =>
    if r.scope.isOpen then
      let (e, fresh) := r.fresh.effectVar
      set { r with fresh, scope := r.scope.insertEffect name e }
      return e
    else throw (.unknownEffect name span)

/-- The type a name stands for with the given arguments. -/
def applied (reg : Registry) (span : Span) (name : String) (args : List Ty) : ResolveM Ty :=
  if Text.isVariableName name then
    return (Ty.var (← typeVar span name)).applyTo args
  else
    match Prim.ofName? name with
    | some p =>
      if args.isEmpty then return .prim p else throw (.kind name 0 args.length span)
    | none =>
      match reg.dataTypes.arity? name with
      | some arity =>
        if arity = args.length then return .named name args
        else throw (.kind name arity args.length span)
      | none => throw (.unknownType name span)

/-- The row an effect part stands for. All labels must be declared effects. -/
def effects (reg : Registry) (span : Span) : EffectExpr → ResolveM Row
  | .pure => return .pure
  | .var name => return .ofVar (← effectVar span name)
  | .row labels rest =>
    match labels.find? fun label => !reg.hasEffect label with
    | some label => throw (.unknownEffect label span)
    | none =>
      match rest with
      | some name => return .extensible labels (← effectVar span name)
      | none => return .closed labels

mutual

/-- The type a written type stands for. -/
def type (reg : Registry) (span : Span) : TypeExpr → ResolveM Ty
  | .named name => applied reg span name []
  | .applied name args => do applied reg span name (← types reg span args)
  | .function params result effect => do
    let params ← types reg span params
    let result ← type reg span result
    return .fn params result (← effects reg span effect)
  | .tuple elems => do return .tuple (← types reg span elems)

/-- The types that written types stand for, from left to right. -/
def types (reg : Registry) (span : Span) : List TypeExpr → ResolveM (List Ty)
  | [] => return []
  | t :: ts => do
    let t ← type reg span t
    return t :: (← types reg span ts)

end

end Resolve

end RowTyping
