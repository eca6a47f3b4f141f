import RowTyping.Types.Scheme
import RowTyping.Types.Subst

/-!
# Type environments

Names are looked up in a stack of local scopes, innermost first, and then among the globals. Globals
are closed, so only the scopes contribute variables that must not be generalised.
-/

namespace RowTyping

/-- Variables that must stay as they are, in increasing order. -/
structure FixedVars where
  /-- The type variables. -/
  types : List TypeVar := []
  /-- The effect variables. -/
  effects : List EffectVar := []
deriving DecidableEq, Repr, Inhabited

/-- Keep further type variables fixed. -/
def FixedVars.insertTypes (fixed : FixedVars) (vs : List TypeVar) : FixedVars :=
  { fixed with types := Sorted.ofList (fixed.types ++ vs) }

/-- The free variables of a scheme under a substitution, in order of appearance. -/
def Scheme.freeVars (s : Subst) (σ : Scheme) : List Var :=
  (s.apply σ.type).vars.filter fun
    | .type v => !σ.typeVars.contains v
    | .effect e => !σ.effectVars.contains e

/-- The types of names. -/
structure Env where
  /-- The names of the whole module. -/
  globals : Dict String Scheme := {}
  /-- The local scopes, innermost first. -/
  scopes : List (Dict String Scheme) := []
deriving DecidableEq, Repr, Inhabited

namespace Env

/-- Give a name a type in the whole module. -/
def bindGlobal (env : Env) (name : String) (σ : Scheme) : Env :=
  { env with globals := env.globals.insert name σ }

/-- Whether a name has a type in the whole module. -/
def hasGlobal (env : Env) (name : String) : Bool :=
  env.globals.contains name

/-- The type of a name, in the innermost scope that has one. -/
def get? (env : Env) (name : String) : Option Scheme :=
  (env.scopes.findSome? (·.get? name)).or (env.globals.get? name)

/-- Give a name a type in the innermost scope, which is opened if there is none. -/
def bind (env : Env) (name : String) (σ : Scheme) : Env :=
  match env.scopes with
  | [] => { env with scopes := [Dict.empty.insert name σ] }
  | scope :: outer => { env with scopes := scope.insert name σ :: outer }

/-- Open a scope. -/
def push (env : Env) : Env :=
  { env with scopes := .empty :: env.scopes }

/-- Close the innermost scope. -/
def pop (env : Env) : Env :=
  { env with scopes := env.scopes.tail }

/-- The variables that are free in the local scopes under a substitution. -/
def freeVars (env : Env) (s : Subst) : FixedVars :=
  let vars := (env.scopes.flatMap (·.values)).flatMap (·.freeVars s)
  { types := Sorted.ofList (vars.filterMap Var.type?)
    effects := Sorted.ofList (vars.filterMap Var.effect?) }

end Env

end RowTyping
