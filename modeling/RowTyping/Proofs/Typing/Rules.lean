import RowTyping.Infer.Expr
import RowTyping.Proofs.Valuation
import RowTyping.Signature

/-!
# Typing rules

`HasType reg Γ e t ε` says that the expression `e` has the type `t` and may have the effects of the
row `ε` when names have the types that the context `Γ` gives them. The rules guess: a variable has
any instance of its scheme, a function any parameter types that its patterns fit, and a row may be
any that contains the rows of the parts. They neither draw variables nor unify.
-/

namespace RowTyping

/-! ## Written types -/

/-- What the variable names of a written type stand for. -/
structure Naming where
  /-- The types that names of type variables stand for. -/
  types : String → Ty
  /-- The rows that names of effect variables stand for. -/
  effects : String → Row

/-- The row that an effect part means. All labels must be declared effects. -/
def EffectExpr.row? (reg : Registry) (ν : Naming) : EffectExpr → Option Row
  | .pure => some .pure
  | .var name => some (ν.effects name)
  | .row labels rest =>
    if labels.all reg.hasEffect then
      match rest with
      | none => some (.closed labels)
      | some name =>
        let tail := ν.effects name
        some { labels := Sorted.ofList (labels ++ tail.labels), tail := tail.tail }
    else none

namespace TypeExpr

/-- The type that a name means with the given arguments. -/
def ofName? (reg : Registry) (ν : Naming) (name : String) (args : List Ty) : Option Ty :=
  if Text.isVariableName name then some ((ν.types name).applyTo args)
  else
    match Prim.ofName? name with
    | some p => if args.isEmpty then some (.prim p) else none
    | none => if reg.dataTypes.arity? name = some args.length then some (.named name args) else none

mutual

/-- The type that a written type means. -/
def type? (reg : Registry) (ν : Naming) : TypeExpr → Option Ty
  | .named name => ofName? reg ν name []
  | .applied name args => do ofName? reg ν name (← types? reg ν args)
  | .function params result effect => do
    return .fn (← types? reg ν params) (← type? reg ν result) (← effect.row? reg ν)
  | .tuple elems => do return .tuple (← types? reg ν elems)

/-- The types that written types mean. -/
def types? (reg : Registry) (ν : Naming) : List TypeExpr → Option (List Ty)
  | [] => some []
  | t :: ts => do return (← type? reg ν t) :: (← types? reg ν ts)

end

/-- A written type describes a type if it means this type for some meaning of its variables. -/
def Describes (reg : Registry) (written : TypeExpr) (t : Ty) : Prop :=
  ∃ ν, written.type? reg ν = some t

end TypeExpr

/-! ## Contexts -/

/-- What is assumed about a name. -/
structure Assumption where
  /-- The types that the name stands for. -/
  instances : Ty → Prop
  /-- The types that the name may be used at. -/
  uses : Ty → Prop

/-- The name has one type. -/
def Assumption.mono (t : Ty) : Assumption := ⟨(· = t), (· = t)⟩

namespace Scheme

/-- The second valuation gives new meanings to quantified variables only. -/
def Instantiates (σ : Scheme) (V W : Valuation) : Prop :=
  ∀ x, x ∉ σ.quantified → W.AgreesAt V x

/-- The type is an instance of the scheme, whose free variables stand for what `V` says. -/
def HasInstance (σ : Scheme) (V : Valuation) (t : Ty) : Prop :=
  ∃ W, σ.Instantiates V W ∧ t = σ.type.under W

/-- The scheme is that of a function with a closed row. -/
def HasClosedRow (σ : Scheme) (closed : Row) : Prop :=
  closed.tail = none ∧ ∃ params result, σ.type.under .self = .fn params result closed

/-- The type is an instance of a function's scheme with further effects in its closed row. -/
def OpensTo (σ : Scheme) (V : Valuation) (t : Ty) : Prop :=
  ∃ params result closed opened, σ.HasClosedRow closed ∧ closed ≤ opened ∧
    σ.HasInstance V (.fn params result closed) ∧ t = .fn params result opened

/-- What a scheme says about a name when its free variables stand for what `V` says. A scheme that
quantifies and requires nothing is its type. -/
def under (σ : Scheme) (V : Valuation) : Assumption :=
  if σ.isMono && σ.givens.isEmpty then .mono (σ.type.under V)
  else ⟨σ.HasInstance V, fun t => σ.HasInstance V t ∨ σ.OpensTo V t⟩

end Scheme

/-- What is assumed about names. -/
def Context := String → Option Assumption

namespace Context

/-- Assume something about a name. -/
def bind (Γ : Context) (name : String) (a : Assumption) : Context :=
  fun n => if n = name then some a else Γ n

/-- Assume types of names, from left to right. -/
def bindAll (Γ : Context) (bindings : List (String × Ty)) : Context :=
  bindings.foldl (fun Γ b => Γ.bind b.1 (.mono b.2)) Γ

end Context

/-- The context of an environment whose free variables stand for what `V` says. -/
def Env.under (env : Env) (V : Valuation) : Context :=
  fun name => (env.get? name).map (·.under V)

/-! ## Patterns -/

mutual

/-- A pattern fits the values of a type and gives types to the names it binds. -/
inductive Pattern.Fits (reg : Registry) : Pattern → Ty → List (String × Ty) → Prop
  | wildcard {span : Span} {t : Ty} : Fits reg (.wildcard span) t []
  | var {span : Span} {name : String} {t : Ty} : Fits reg (.var span name) t [(name, t)]
  | lit {span : Span} {value : Literal} : Fits reg (.lit span value) value.type []
  /-- The fields have the types that the constructor has at the arguments of the data type. -/
  | constructor {span : Span} {name : String} {args : List Pattern} {d : DataType}
      {c : Constructor} {bindings : List (String × Ty)} (V : Valuation) :
      reg.dataTypes.constructor? name = some (d, c) →
      FitsAll reg args (c.fields.map (·.under V)) bindings →
      Fits reg (.constructor span name args) (d.resultType.under V) bindings
  | tuple {span : Span} {elems : List Pattern} {ts : List Ty} {bindings : List (String × Ty)} :
      FitsAll reg elems ts bindings → Fits reg (.tuple span elems) (.tuple ts) bindings

/-- Patterns fit as many types. -/
inductive Pattern.FitsAll (reg : Registry) : List Pattern → List Ty → List (String × Ty) → Prop
  | nil : FitsAll reg [] [] []
  | cons {p : Pattern} {ps : List Pattern} {t : Ty} {ts : List Ty}
      {first rest : List (String × Ty)} :
      Fits reg p t first → FitsAll reg ps ts rest → FitsAll reg (p :: ps) (t :: ts) (first ++ rest)

end

/-! ## Expressions -/

mutual

/-- An expression has a type and the effects of a row. -/
inductive HasType (reg : Registry) : Context → Expr → Ty → Row → Prop
  | lit {Γ : Context} {span : Span} {value : Literal} :
      HasType reg Γ (.lit span value) value.type .pure
  | var {Γ : Context} {span : Span} {name : String} {a : Assumption} {t : Ty} :
      Γ name = some a → a.uses t → HasType reg Γ (.var span name) t .pure
  | lambda {Γ : Context} {span : Span} {params : List Pattern} {body : Expr} {ts : List Ty}
      {bindings : List (String × Ty)} {t : Ty} {ε latent : Row} :
      Pattern.FitsAll reg params ts bindings → HasType reg (Γ.bindAll bindings) body t ε →
      ε ≤ latent → HasType reg Γ (.lambda span params body) (.fn ts t latent) .pure
  | call {Γ : Context} {span : Span} {func : Expr} {args : List Expr} {ts : List Ty} {t : Ty}
      {latent ε₀ ε : Row} :
      HasType reg Γ func (.fn ts t latent) ε₀ → HaveTypes reg Γ args ts ε →
      ε₀ ≤ ε → latent ≤ ε → HasType reg Γ (.call span func args) t ε
  /-- A local definition whose names have one type each. -/
  | letMono {Γ : Context} {span : Span} {p : Pattern} {stated : Option (Spanned TypeExpr)}
      {value body : Expr} {t₁ t : Ty} {bindings : List (String × Ty)} {ε₁ ε₂ ε : Row} :
      HasType reg Γ value t₁ ε₁ → (∀ written ∈ stated, written.node.Describes reg t₁) →
      Pattern.Fits reg p t₁ bindings → HasType reg (Γ.bindAll bindings) body t ε₂ →
      ε₁ ≤ ε → ε₂ ≤ ε → HasType reg Γ (.letIn span p stated value body) t ε
  /-- A local definition of a value whose name has every instance of a scheme. -/
  | letPoly {Γ : Context} {span nameSpan : Span} {name : String}
      {stated : Option (Spanned TypeExpr)} {value body : Expr} {t : Ty} {ε₂ ε : Row} (σ : Scheme)
      (V : Valuation) :
      value.isValue = true →
      (∀ t₁, (σ.under V).instances t₁ → HasType reg Γ value t₁ .pure) →
      (∀ t₁, (σ.under V).instances t₁ → ∀ written ∈ stated, written.node.Describes reg t₁) →
      HasType reg (Γ.bind name (σ.under V)) body t ε₂ → ε₂ ≤ ε →
      HasType reg Γ (.letIn span (.var nameSpan name) stated value body) t ε
  | cond {Γ : Context} {span : Span} {condition onTrue onFalse : Expr} {t : Ty}
      {ε₀ ε₁ ε₂ ε : Row} :
      HasType reg Γ condition (.prim .bool) ε₀ → HasType reg Γ onTrue t ε₁ →
      HasType reg Γ onFalse t ε₂ → ε₀ ≤ ε → ε₁ ≤ ε → ε₂ ≤ ε →
      HasType reg Γ (.cond span condition onTrue onFalse) t ε
  | cases {Γ : Context} {span : Span} {scrutinee : Expr} {arms : List (Pattern × Expr)}
      {t₀ t : Ty} {ε₀ ε : Row} :
      HasType reg Γ scrutinee t₀ ε₀ → ArmsHaveType reg Γ t₀ arms t ε → ε₀ ≤ ε →
      HasType reg Γ (.cases span scrutinee arms) t ε
  | ascribe {Γ : Context} {span : Span} {inner : Expr} {written : Spanned TypeExpr} {t : Ty}
      {ε : Row} :
      HasType reg Γ inner t ε → written.node.Describes reg t →
      HasType reg Γ (.ascribe span inner written) t ε
  | tuple {Γ : Context} {span : Span} {elems : List Expr} {ts : List Ty} {ε : Row} :
      HaveTypes reg Γ elems ts ε → HasType reg Γ (.tuple span elems) (.tuple ts) ε

/-- Expressions have as many types, and a row contains the effects of all of them. -/
inductive HaveTypes (reg : Registry) : Context → List Expr → List Ty → Row → Prop
  | nil {Γ : Context} {ε : Row} : HaveTypes reg Γ [] [] ε
  | cons {Γ : Context} {e : Expr} {es : List Expr} {t : Ty} {ts : List Ty} {ε₁ ε : Row} :
      HasType reg Γ e t ε₁ → ε₁ ≤ ε → HaveTypes reg Γ es ts ε →
      HaveTypes reg Γ (e :: es) (t :: ts) ε

/-- The patterns of arms fit a type, the bodies have one type, and a row contains their effects. -/
inductive ArmsHaveType (reg : Registry) :
    Context → Ty → List (Pattern × Expr) → Ty → Row → Prop
  | nil {Γ : Context} {t₀ t : Ty} {ε : Row} : ArmsHaveType reg Γ t₀ [] t ε
  | cons {Γ : Context} {t₀ t : Ty} {p : Pattern} {body : Expr} {rest : List (Pattern × Expr)}
      {bindings : List (String × Ty)} {ε₁ ε : Row} :
      Pattern.Fits reg p t₀ bindings → HasType reg (Γ.bindAll bindings) body t ε₁ → ε₁ ≤ ε →
      ArmsHaveType reg Γ t₀ rest t ε → ArmsHaveType reg Γ t₀ ((p, body) :: rest) t ε

end

/-- A definition has a type. One without parameters is a value without effects; the body of a
function has at most the effects of the function type. -/
inductive Definition.HasType (reg : Registry) (Γ : Context) (d : Definition) : Ty → Prop
  | value {t : Ty} : d.params = [] → RowTyping.HasType reg Γ d.body t .pure →
      Definition.HasType reg Γ d t
  | function {ts : List Ty} {t : Ty} {bindings : List (String × Ty)} {ε latent : Row} :
      d.params ≠ [] → Pattern.FitsAll reg d.params ts bindings →
      RowTyping.HasType reg (Γ.bindAll bindings) d.body t ε → ε ≤ latent →
      Definition.HasType reg Γ d (.fn ts t latent)

end RowTyping
