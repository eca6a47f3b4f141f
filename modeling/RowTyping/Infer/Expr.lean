import RowTyping.Infer.State
import RowTyping.Syntax.Module

/-!
# Inference of patterns and expressions

Each expression gets a type and the row of effects that evaluating it may have. Local definitions of
functions, variables and literals are generalised; all others keep one type.
-/

namespace RowTyping

/-- A type with the effects of evaluating an expression of that type. -/
structure Typed where
  /-- The type. -/
  type : Ty
  /-- The effects. -/
  effects : Row := .pure
deriving DecidableEq, Repr, Inhabited

/-- The type of a literal. -/
def Literal.type : Literal → Ty
  | .int _ => .prim .int
  | .float _ => .prim .float
  | .bool _ => .prim .bool
  | .string _ => .prim .string
  | .unit => .prim .unit

namespace Expr

/-- Whether an expression has no effects by its form, so that its type may be generalised. -/
def isValue : Expr → Bool
  | .lambda _ _ _ | .var _ _ | .lit _ _ => true
  | .call _ _ _ | .letIn _ _ _ _ _ | .cond _ _ _ _ | .cases _ _ _ | .ascribe _ _ _ | .tuple _ _ =>
    false

/-- How a message speaks of a called expression. -/
def calleeName : Expr → String
  | .var _ name => s!"`{name}`"
  | _ => "this function"

end Expr

namespace Infer

mutual

/-- Match a pattern with a type, giving types to the names it binds. -/
def pattern (reg : Registry) : Pattern → Ty → InferM Unit
  | .wildcard _, _ => return ()
  | .var _ name, expected => bind name (.mono expected)
  | .lit span value, expected => unify expected value.type ⟨span, .patternMatch⟩
  | .constructor span name args, expected =>
    match reg.dataTypes.constructor? name with
    | none => throw (.unknownConstructor name span)
    | some (d, c) => do
      if c.fields.length ≠ args.length then
        throw (.arity s!"constructor `{name}`" c.fields.length args.length span)
      let s ← renewTypes .empty d.paramVars
      unify expected (s.apply d.resultType) ⟨span, .patternMatch⟩
      patterns reg args (c.fields.map s.apply)
  | .tuple span elems, expected => do
    let types ← freshTypes elems
    unify expected (.tuple types) ⟨span, .patternMatch⟩
    patterns reg elems types

/-- Match patterns with types in turn. -/
def patterns (reg : Registry) : List Pattern → List Ty → InferM Unit
  | p :: ps, t :: ts => do
    pattern reg p t
    patterns reg ps ts
  | _, _ => return ()

end

/-- Give fresh types to parameters. -/
def parameters (reg : Registry) : List Pattern → InferM (List Ty)
  | [] => return []
  | p :: ps => do
    let t ← freshType
    pattern reg p t
    return t :: (← parameters reg ps)

/-- The fixed variables of a local definition together with those of obligations that other
definitions share, and the obligations that belong to it alone. The shared ones stay pending. -/
def splitObligations (t : Ty) : InferM (FixedVars × List Obligation) := do
  let st ← get
  let fixed := st.env.freeVars st.subst
  let own := (st.subst.apply t).typeVars.filter (!fixed.types.contains ·)
  let isLocal (ob : Obligation) : Bool :=
    let vars := (st.subst.apply ob.type).typeVars
    !vars.isEmpty && vars.all (own.contains ·)
  let (inner, shared) := (← takeObligations).partition isLocal
  defer shared
  let sharedVars := shared.flatMap fun ob => (st.subst.apply ob.type).typeVars
  return (fixed.insertTypes sharedVars, inner)

/-- Generalise the type of a local definition and bind its name. -/
def bindGeneralized (span : Span) (name : String) (t : Ty) : InferM Unit := do
  let (fixed, inner) ← splitObligations t
  let st ← get
  match generalize t inner st.subst fixed st.names with
  | .error e => throw e
  | .ok (σ, deferred) =>
    defer deferred
    record .letGen name σ.type "generalize" span
    bind name σ

/-- Bind the pattern of a local definition to the type of its value. A value bound to a plain name
is generalised. -/
def bindLet (reg : Registry) (p : Pattern) (value : Expr) (t : Ty) : InferM Unit :=
  match p with
  | .var span name => do
    if value.isValue then bindGeneralized span name t
    else bind name (.mono (← apply t))
  | p => pattern reg p t

/-- Make the arguments of a call fit the parameters. -/
def arguments : Nat → List Ty → List (Ty × Span) → InferM Unit
  | i, param :: params, (arg, span) :: args => do
    unify param arg ⟨span, .argument i⟩
    arguments (i + 1) params args
  | _, _, _ => return ()

/-- The parameters, the result and the effects of what is called with the given arguments. -/
def callee (func : Expr) (t : Ty) (args : List Expr) (span : Span) :
    InferM (List Ty × Ty × Row) := do
  match ← apply t with
  | .fn params result effects =>
    if params.length ≠ args.length then
      throw (.arity func.calleeName params.length args.length span)
    return (params, result, effects)
  | t =>
    let params ← freshTypes args
    let result ← freshType
    let effects ← freshRow
    unify t (.fn params result effects) ⟨func.span, .calledValue⟩
    return (params, result, effects)

/-- Make the type of an arm equal to that of the first one. -/
def unifyArm (first : Ty) (firstSpan : Span) (other : Ty) (span : Span) : InferM Unit := do
  try unify first other ⟨span, .matchArms⟩
  catch
    | .mismatch .. => throw (.armMismatch (← apply first) (← apply other) firstSpan span)
    | e => throw e

mutual

/-- Infer the type and the effects of an expression. -/
def expr (reg : Registry) : Expr → InferM Typed
  | .lit span value => do
    record .literal "literal" value.type "" span
    return { type := value.type }
  | .var span name => do
    match (← get).env.get? name with
    | none => throw (.unboundVariable name span)
    | some σ =>
      let t ← instantiate σ span
      record .varLookup name t "instantiate" span
      return { type := t }
  | .lambda span params body => do
    let (params, body) ← withScope do
      let params ← parameters reg params
      return (params, ← expr reg body)
    let t := .fn params body.type (← openRow body.effects)
    record .lambda "fn" t "" span
    return { type := t }
  | .call span func args => do
    let called ← expr reg func
    let typedArgs ← exprs reg args
    let (params, result, latent) ← callee func called.type args span
    arguments 0 params ((typedArgs.map (·.type)).zip (args.map (·.span)))
    let rows := called.effects :: typedArgs.map (·.effects) ++ [latent]
    let effects ← join rows ⟨span, .callEffects⟩
    record .call func.calleeName result "" span
    return { type := result, effects }
  | .letIn span p stated value body => do
    let bound ← expr reg value
    if let some written := stated then
      let declared ← resolve reg written
      unify declared bound.type ⟨written.span, .letType⟩
    let rest ← withScope do
      bindLet reg p value bound.type
      expr reg body
    let effects ← join [bound.effects, rest.effects] ⟨span, .callEffects⟩
    record .letIn "let" rest.type "" span
    return { type := rest.type, effects }
  | .cond span condition onTrue onFalse => do
    let cond ← expr reg condition
    unify (.prim .bool) cond.type ⟨condition.span, .ifCondition⟩
    let yes ← expr reg onTrue
    let no ← expr reg onFalse
    unify yes.type no.type ⟨onFalse.span, .ifBranches⟩
    let effects ← join [cond.effects, yes.effects, no.effects] ⟨span, .callEffects⟩
    record .cond "if" yes.type "" span
    return { type := yes.type, effects }
  | .cases span scrutinee branches => do
    let value ← expr reg scrutinee
    let (first, rows) ← arms reg value.type none branches
    recordCases ⟨value.type, branches.map (·.1), span⟩
    let t ← match first with
      | some (t, _) => pure t
      | none => freshType
    let effects ← join (value.effects :: rows) ⟨span, .callEffects⟩
    record .cases "match" t "" span
    return { type := t, effects }
  | .ascribe span inner written => do
    let typed ← expr reg inner
    let declared ← resolve reg written
    unify declared typed.type ⟨written.span, .typeAscription⟩
    record .ascription "ascription" declared "" span
    return { type := declared, effects := typed.effects }
  | .tuple span elems => do
    let typed ← exprs reg elems
    let t := .tuple (typed.map (·.type))
    let effects ← join (typed.map (·.effects)) ⟨span, .callEffects⟩
    record .tuple "tuple" t "" span
    return { type := t, effects }

/-- Infer expressions from left to right. -/
def exprs (reg : Registry) : List Expr → InferM (List Typed)
  | [] => return []
  | e :: es => do
    let typed ← expr reg e
    return typed :: (← exprs reg es)

/-- Infer the arms of a choice. All have the type of the first one, which is handed back with its
place and the effects of the arms. -/
def arms (reg : Registry) (scrutinee : Ty) (first : Option (Ty × Span)) :
    List (Pattern × Expr) → InferM (Option (Ty × Span) × List Row)
  | [] => return (first, [])
  | (p, body) :: rest => do
    let typed ← withScope do
      pattern reg p scrutinee
      expr reg body
    let first ← match first with
      | none => pure (typed.type, body.span)
      | some (t, span) => do
        unifyArm t span typed.type body.span
        pure (t, span)
    let (first, rows) ← arms reg scrutinee (some first) rest
    return (first, typed.effects :: rows)

end

/-- Infer a function by its parameters and its body, in a scope of its own. -/
def function (reg : Registry) (params : List Pattern) (body : Expr) : InferM (List Ty × Typed) :=
  withScope do
    let params ← parameters reg params
    return (params, ← expr reg body)

/-- Infer a definition: a value if it has no parameters, otherwise a function whose row has the
effects of the body. -/
def definition (reg : Registry) (d : Definition) : InferM Typed := do
  if d.params.isEmpty then
    expr reg d.body
  else
    let (params, body) ← function reg d.params d.body
    return { type := .fn params body.type body.effects }

end Infer

end RowTyping
