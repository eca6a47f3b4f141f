import RowTyping.Syntax.Span

/-!
# Expressions, patterns and written types

The terms a module is made of, as a parser hands them over. Every expression and pattern carries its
span; written types carry one where they are attached.
-/

namespace RowTyping

/-- A literal value. -/
inductive Literal where
  | int (n : Int64)
  | float (x : Float)
  | bool (b : Bool)
  | string (s : String)
  | unit
deriving Repr, Inhabited

/-- A pattern. -/
inductive Pattern where
  /-- Matches every value. -/
  | wildcard (span : Span)
  /-- Matches every value and binds it to a name. -/
  | var (span : Span) (name : String)
  /-- Matches one literal. -/
  | lit (span : Span) (value : Literal)
  /-- Matches the values built by a constructor whose fields match. -/
  | constructor (span : Span) (name : String) (args : List Pattern)
  /-- Matches tuples whose elements match. -/
  | tuple (span : Span) (elems : List Pattern)
deriving Repr, Inhabited

namespace Pattern

/-- Where the pattern stands. -/
def span : Pattern → Span
  | .wildcard span | .var span _ | .lit span _ | .constructor span _ _ | .tuple span _ => span

/-- Whether the pattern matches every value without looking at it. -/
def isCatchAll : Pattern → Bool
  | .wildcard _ | .var _ _ => true
  | .lit _ _ | .constructor _ _ _ | .tuple _ _ => false

mutual

/-- The names a pattern binds, from left to right. -/
def boundNames : Pattern → List String
  | .wildcard _ | .lit _ _ => []
  | .var _ name => [name]
  | .constructor _ _ args => boundNamesAll args
  | .tuple _ elems => boundNamesAll elems

/-- The names a list of patterns binds. -/
def boundNamesAll : List Pattern → List String
  | [] => []
  | p :: ps => p.boundNames ++ boundNamesAll ps

end

end Pattern

/-- The effect part of a written function type. -/
inductive EffectExpr where
  /-- No effects. -/
  | pure
  /-- An effect variable. -/
  | var (name : String)
  /-- Named effects and possibly an effect variable. -/
  | row (effects : List String) (rest : Option String)
deriving DecidableEq, Repr, Inhabited

/-- A type as it is written in a module. -/
inductive TypeExpr where
  /-- A name alone. -/
  | named (name : String)
  /-- A name with arguments. -/
  | applied (name : String) (args : List TypeExpr)
  /-- A function type. -/
  | function (params : List TypeExpr) (result : TypeExpr) (effect : EffectExpr)
  /-- A tuple type. -/
  | tuple (elems : List TypeExpr)
deriving Repr, Inhabited

/-- An expression. -/
inductive Expr where
  /-- A literal. -/
  | lit (span : Span) (value : Literal)
  /-- A reference to a variable, a constructor or an operation. -/
  | var (span : Span) (name : String)
  /-- An anonymous function of all its parameters at once. -/
  | lambda (span : Span) (params : List Pattern) (body : Expr)
  /-- A call with all arguments at once. -/
  | call (span : Span) (callee : Expr) (args : List Expr)
  /-- A local definition. -/
  | letIn (span : Span) (pattern : Pattern) (stated : Option (Spanned TypeExpr))
      (value body : Expr)
  /-- A choice by a condition. -/
  | cond (span : Span) (condition onTrue onFalse : Expr)
  /-- A choice by patterns: arms of a pattern and a body. -/
  | cases (span : Span) (scrutinee : Expr) (arms : List (Pattern × Expr))
  /-- An expression with a stated type. -/
  | ascribe (span : Span) (expr : Expr) (stated : Spanned TypeExpr)
  /-- A tuple. -/
  | tuple (span : Span) (elems : List Expr)
deriving Repr, Inhabited

/-- Where the expression stands. -/
def Expr.span : Expr → Span
  | .lit span _ | .var span _ | .lambda span _ _ | .call span _ _ | .letIn span _ _ _ _
  | .cond span _ _ _ | .cases span _ _ | .ascribe span _ _ | .tuple span _ => span

end RowTyping
