import RowTyping.Proofs.Check.Inferences
import RowTyping.Proofs.Check.Waves
import RowTyping.Proofs.Infer.Soundness

/-!
# The calls of a check

Most of a check follows the syntax of the module. Three things do not: a substitution is applied by
following bindings, equations are solved while variables in them are replaced, and the search for
missing patterns goes into the fields of constructors. `Module.calls` lists all calls of these that
the check of a module comes to, in the states in which it makes them: each function of inference has
a list of its own calls, and a module those of the checks that its report is made of
(`Checker.gathers_inferComponents`, `Checker.gathers_checkDeclared`). `Call.Makes` says which calls
a call makes in turn, so that a call returns if there is no endless chain of them (`Call.Returns`).
-/

namespace RowTyping

/-- A call of a function that does not follow the syntax of the module, or the check of a module. -/
inductive Call where
  /-- Apply a substitution to a type. -/
  | apply (s : Subst) (t : Ty)
  /-- Apply a substitution to a row. -/
  | applyRow (s : Subst) (r : Row)
  /-- Solve resolved equations. -/
  | solve (s : Subst) (eqs : List Equation) (u : Unifier)
  /-- Search for the values that a matrix of patterns leaves out. -/
  | missing (types : DataTypes) (rows : List Coverage.PatternRow) (columns : List Ty)
  /-- Check a module. -/
  | check (m : Module) (trace : Bool)

namespace Infer

/-! ## Operations -/

/-- The calls of recording a type. -/
def recordCalls (t : Ty) (st : InferState) : List Call :=
  [.apply st.subst t]

/-- The calls of making two types equal. -/
def unifyCalls (expected actual : Ty) (st : InferState) : List Call :=
  [.apply st.subst expected, .apply st.subst actual,
    .solve st.subst [.types (st.subst.apply expected) (st.subst.apply actual)] st.unifier]

/-- The calls of making types equal in turn. -/
def unifyEachCalls (origin : Origin) : List Ty → List Ty → InferState → List Call
  | t :: ts, u :: us, st =>
    unifyCalls t u st ++ after (unify t u origin) st fun _ st => unifyEachCalls origin ts us st
  | _, _, _ => []

/-- The calls of making two rows equal. -/
def unifyRowsCalls (expected actual : Row) (st : InferState) : List Call :=
  [.applyRow st.subst expected, .applyRow st.subst actual]

/-- The calls of requiring that all effects of a row are allowed by another one. -/
def subeffectCalls (sub sup : Row) (st : InferState) : List Call :=
  .applyRow st.subst sub ::
    after (openRow (st.subst.applyRow sub)) st fun sub st => unifyRowsCalls sup sub st

/-- The calls of requiring that all effects of several rows are allowed by another one. -/
def subeffectsCalls (sup : Row) (origin : Origin) : List Row → InferState → List Call
  | [], _ => []
  | r :: rs, st =>
    subeffectCalls r sup st ++ after (subeffect r sup origin) st
      fun _ st => subeffectsCalls sup origin rs st

/-- The calls of joining rows. One row is not joined with anything. -/
def joinCalls (rows : List Row) (origin : Origin) (st : InferState) : List Call :=
  rows.map (.applyRow st.subst) ++
    match (rows.map st.subst.applyRow).filter (!·.isPure) with
    | [] => []
    | [_] => []
    | kept => after freshRow st fun joined st =>
        subeffectsCalls joined origin kept st ++
          after (subeffects joined origin kept) st fun _ st => [.applyRow st.subst joined]

/-- The calls of using a scheme. -/
def instantiateCalls (σ : Scheme) (st : InferState) : List Call :=
  if σ.isMono && σ.givens.isEmpty then []
  else after (renewTypes .empty σ.typeVars) st
    fun s st => after (renewEffects s σ.effectVars) st fun s _ =>
    .apply s σ.type :: σ.givens.map fun g => .apply s g.type

/-- The calls of generalising a type. -/
def generalizeCalls (t : Ty) (residual : List Obligation) (s : Subst) (fixed : FixedVars)
    (hints : VarNames) : List Call :=
  let closed := Generalize.closing (Generalize.singletonTails (s.apply t) residual fixed)
  .apply s t :: .apply closed (s.apply t) ::
    (residual.flatMap fun ob => [.apply s ob.type, .apply closed (s.apply ob.type)]) ++
    (hints.types.entries.map fun entry => .apply s (.var entry.1)) ++
    hints.effects.entries.map fun entry => .applyRow s (.ofVar entry.1)

/-! ## Patterns -/

mutual

/-- The calls of matching a pattern with a type. -/
def patternCalls (reg : Registry) : Pattern → Ty → InferState → List Call
  | .wildcard _, _, _ => []
  | .var _ _, _, _ => []
  | .lit _ value, expected, st => unifyCalls expected value.type st
  | .constructor span name args, expected, st =>
    match reg.dataTypes.constructor? name with
    | none => []
    | some entry =>
      if entry.2.fields.length ≠ args.length then []
      else after (renewTypes .empty entry.1.paramVars) st fun s st =>
        .apply s entry.1.resultType :: unifyCalls expected (s.apply entry.1.resultType) st ++
          after (unify expected (s.apply entry.1.resultType) ⟨span, .patternMatch⟩) st fun _ st =>
            entry.2.fields.map (.apply s) ++ patternsCalls reg args (entry.2.fields.map s.apply) st
  | .tuple span elems, expected, st =>
    after (freshTypes elems) st fun types st =>
      unifyCalls expected (.tuple types) st ++
        after (unify expected (.tuple types) ⟨span, .patternMatch⟩) st fun _ st =>
          patternsCalls reg elems types st

/-- The calls of matching patterns with types in turn. -/
def patternsCalls (reg : Registry) : List Pattern → List Ty → InferState → List Call
  | p :: ps, t :: ts, st =>
    patternCalls reg p t st ++ after (pattern reg p t) st fun _ st => patternsCalls reg ps ts st
  | _, _, _ => []

end

/-- The calls of giving fresh types to parameters. -/
def parametersCalls (reg : Registry) : List Pattern → InferState → List Call
  | [], _ => []
  | p :: ps, st => after freshType st fun t st =>
      patternCalls reg p t st ++ after (pattern reg p t) st fun _ st => parametersCalls reg ps st

/-! ## Parts of expressions -/

/-- The calls of finding out which obligations belong to a local definition alone. -/
def splitCalls (t : Ty) (st : InferState) : List Call :=
  .apply st.subst t :: (st.env.locals.map fun σ => .apply st.subst σ.type) ++
    st.obligations.map fun ob => .apply st.subst ob.type

/-- The calls of generalising the type of a local definition and binding its name. -/
def bindGeneralizedCalls (t : Ty) (st : InferState) : List Call :=
  splitCalls t st ++ after (splitObligations t) st fun split st =>
    generalizeCalls t split.2 st.subst split.1 st.names ++
      match generalize t split.2 st.subst split.1 st.names with
      | .error _ => []
      | .ok generalized => recordCalls generalized.1.type st

/-- The calls of binding the pattern of a local definition. -/
def bindLetCalls (reg : Registry) (p : Pattern) (value : Expr) (t : Ty) (st : InferState) :
    List Call :=
  match p with
  | .var _ _ => if value.isValue then bindGeneralizedCalls t st else [.apply st.subst t]
  | p => patternCalls reg p t st

/-- The calls of making a type fit a stated one. -/
def fitStatedCalls (reg : Registry) (stated : Option (Spanned TypeExpr)) (t : Ty)
    (st : InferState) :
    List Call :=
  match stated with
  | none => []
  | some written => after (resolve reg written) st fun declared st => unifyCalls declared t st

/-- The calls of making arguments fit the parameters. -/
def argumentsCalls : Nat → List Ty → List (Ty × Span) → InferState → List Call
  | i, param :: params, arg :: args, st =>
    unifyCalls param arg.1 st ++
      after (unify param arg.1 ⟨arg.2, .argument i⟩) st
        fun _ st => argumentsCalls (i + 1) params args st
  | _, _, _, _ => []

/-- The calls of finding out what is called. -/
def calleeCalls (t : Ty) (args : List Expr) (st : InferState) : List Call :=
  .apply st.subst t ::
    match st.subst.apply t with
    | .fn _ _ _ => []
    | t => after (freshTypes args) st fun params st => after freshType st fun result st =>
        after freshRow st fun effects st => unifyCalls t (.fn params result effects) st

/-- The calls of making an arm fit the first one. -/
def firstOfCalls (first : Option (Ty × Span)) (t : Ty) (st : InferState) : List Call :=
  match first with
  | none => []
  | some first => unifyCalls first.1 t st

/-- The calls at the end of the inference of an expression: its row is joined, and its type
recorded. -/
def endCalls (rows : List Row) (origin : Origin) (t : Ty) (st : InferState) : List Call :=
  joinCalls rows origin st ++ after (join rows origin) st fun _ st => recordCalls t st

/-! ## Expressions -/

mutual

/-- The calls of inferring an expression. -/
def exprCalls (reg : Registry) : Expr → InferState → List Call
  | .lit _ value, st => recordCalls value.type st
  | .var span name, st =>
    match st.env.get? name with
    | none => []
    | some σ => instantiateCalls σ st ++ after (instantiate σ span) st fun t st => recordCalls t st
  | .lambda _ params body, st =>
    parametersCalls reg params (opened st) ++
      (after (parameters reg params) (opened st) fun _ st => exprCalls reg body st) ++
      after (function reg params body) st
        fun found st => after (openRow found.2.effects) st fun latent st =>
        recordCalls (.fn found.1 found.2.type latent) st
  | .call span func args, st =>
    exprCalls reg func st ++ after (expr reg func) st fun called st =>
      exprsCalls reg args st ++ after (exprs reg args) st fun typed st =>
        calleeCalls called.type args st ++
          after (callee func called.type args span) st fun found st =>
          let given := (typed.map (·.type)).zip (args.map (·.span))
          argumentsCalls 0 found.1 given st ++ after (arguments 0 found.1 given) st fun _ st =>
            endCalls (called.effects :: typed.map (·.effects) ++ [found.2.2]) ⟨span, .callEffects⟩
              found.2.1 st
  | .letIn span p stated value body, st =>
    exprCalls reg value st ++ after (expr reg value) st fun bound st =>
      fitStatedCalls reg stated bound.type st ++
        after (fitStated reg stated bound.type) st fun _ st =>
        bindLetCalls reg p value bound.type (opened st) ++
          (after (bindLet reg p value bound.type) (opened st) fun _ st => exprCalls reg body st) ++
          after (withScope do bindLet reg p value bound.type; expr reg body) st fun rest st =>
            endCalls [bound.effects, rest.effects] ⟨span, .callEffects⟩ rest.type st
  | .cond span condition onTrue onFalse, st =>
    exprCalls reg condition st ++ after (expr reg condition) st fun cond st =>
      unifyCalls (.prim .bool) cond.type st ++
        after (unify (.prim .bool) cond.type ⟨condition.span, .ifCondition⟩) st fun _ st =>
          exprCalls reg onTrue st ++ after (expr reg onTrue) st fun yes st =>
            exprCalls reg onFalse st ++ after (expr reg onFalse) st fun no st =>
              unifyCalls yes.type no.type st ++
                after (unify yes.type no.type ⟨onFalse.span, .ifBranches⟩) st fun _ st =>
                  endCalls [cond.effects, yes.effects, no.effects] ⟨span, .callEffects⟩ yes.type st
  | .cases span scrutinee branches, st =>
    exprCalls reg scrutinee st ++ after (expr reg scrutinee) st fun value st =>
      armsCalls reg value.type none branches st ++
        after (arms reg value.type none branches) st fun found st =>
          after (recordCases ⟨value.type, branches.map (·.1), span⟩) st fun _ st =>
            after (armsType found.1) st fun t st =>
              endCalls (value.effects :: found.2) ⟨span, .callEffects⟩ t st
  | .ascribe _ inner written, st =>
    exprCalls reg inner st ++ after (expr reg inner) st fun typed st =>
      after (resolve reg written) st fun declared st =>
        unifyCalls declared typed.type st ++
          after (unify declared typed.type ⟨written.span, .typeAscription⟩) st fun _ st =>
            recordCalls declared st
  | .tuple span elems, st =>
    exprsCalls reg elems st ++ after (exprs reg elems) st fun typed st =>
      endCalls (typed.map (·.effects)) ⟨span, .callEffects⟩ (.tuple (typed.map (·.type))) st

/-- The calls of inferring expressions from left to right. -/
def exprsCalls (reg : Registry) : List Expr → InferState → List Call
  | [], _ => []
  | e :: es, st => exprCalls reg e st ++ after (expr reg e) st fun _ st => exprsCalls reg es st

/-- The calls of inferring the arms of a choice. -/
def armsCalls (reg : Registry) (scrutinee : Ty) (first : Option (Ty × Span)) :
    List (Pattern × Expr) → InferState → List Call
  | [], _ => []
  | (p, body) :: rest, st =>
    patternCalls reg p scrutinee (opened st) ++
      (after (pattern reg p scrutinee) (opened st) fun _ st => exprCalls reg body st) ++
      after (withScope do pattern reg p scrutinee; expr reg body) st fun typed st =>
        firstOfCalls first typed.type st ++
          after (firstOf first typed.type body.span) st fun first st =>
          armsCalls reg scrutinee (some first) rest st

end

/-! ## Definitions -/

/-- The calls of inferring a function by its parameters and its body. -/
def functionCalls (reg : Registry) (params : List Pattern) (body : Expr) (st : InferState) :
    List Call :=
  parametersCalls reg params (opened st) ++
    after (parameters reg params) (opened st) fun _ st => exprCalls reg body st

/-- The calls of inferring a definition. -/
def definitionCalls (reg : Registry) (d : Definition) (st : InferState) : List Call :=
  if d.params.isEmpty then exprCalls reg d.body st else functionCalls reg d.params d.body st

/-- The calls of making a definition fit a declared type. -/
def fitDeclaredCalls (reg : Registry) (d : Definition) (declared : Ty) (st : InferState) :
    List Call :=
  let origin : Origin := ⟨d.span, .declaredSignature⟩
  if d.params.isEmpty then
    exprCalls reg d.body st ++ after (expr reg d.body) st fun typed st =>
      unifyCalls declared typed.type st ++ after (unify declared typed.type origin) st fun _ st =>
        unifyRowsCalls .pure typed.effects st
  else
    match declared with
    | .fn params result effects =>
      if params.length ≠ d.params.length then []
      else functionCalls reg d.params d.body st ++
        after (function reg d.params d.body) st fun found st =>
        unifyEachCalls origin params found.1 st ++
          after (unifyEach origin params found.1) st fun _ st =>
          unifyCalls result found.2.type st ++
            after (unify result found.2.type origin) st fun _ st =>
            subeffectCalls found.2.effects effects st
    | _ => []

/-- The calls of requiring that declared variables have come out as different variables. -/
def requireRigidCalls (σ : Scheme) (st : InferState) : List Call :=
  .apply st.subst σ.type :: (σ.typeVars.map fun v => .apply st.subst (.var v)) ++
    σ.effectVars.map fun e => .applyRow st.subst (.ofVar e)

/-- The calls of checking a definition against a declared scheme. -/
def checkDeclaredCalls (reg : Registry) (d : Definition) (σ : Scheme) (allowed : List Given)
    (st : InferState) : List Call :=
  fitDeclaredCalls reg d σ.type st ++ after (fitDeclared reg d σ.type) st fun _ st =>
    requireRigidCalls σ st ++ after (requireRigid σ d.span) st fun _ st =>
      (st.obligations.map fun ob => .apply st.subst ob.type) ++
        allowed.map fun g => .apply st.subst g.type

end Infer

open Infer

/-! ## Bindings -/

/-- The calls of checking the coverage of a choice by patterns. -/
def PendingCases.calls (reg : Registry) (s : Subst) (cases : PendingCases) : List Call :=
  [.apply s cases.scrutinee,
    .missing reg.dataTypes (cases.patterns.map ([·])) [s.apply cases.scrutinee]]

namespace Component

/-- The calls of inferring a definition and making its type that of its recursive uses. -/
def inferBodyCalls (reg : Registry) (d : Definition) (t : Ty) (st : InferState) : List Call :=
  definitionCalls reg d st ++ after (definition reg d) st fun typed st =>
    if d.params.isEmpty then
      unifyRowsCalls .pure typed.effects st ++
        after (unifyRows .pure typed.effects ⟨d.body.span, .topLevelValue⟩) st fun _ st =>
          unifyCalls t typed.type st
    else unifyCalls t typed.type st

/-- The calls of inferring the bodies of members. -/
def inferBodiesCalls (reg : Registry) : List (Definition × Ty) → InferState → List Call
  | [], _ => []
  | (d, t) :: rest, st =>
    inferBodyCalls reg d t st ++
      after (inferBody reg d t *> takeMember d t) st fun _ st => inferBodiesCalls reg rest st

/-- The calls of generalising the types of members from a position on. -/
def generalizeAllCalls (st : InferState) (residual : List (List Obligation)) :
    Nat → List Member → List Call
  | _, [] => []
  | k, m :: ms =>
    .apply st.subst m.type ::
      generalizeCalls m.type (relevant residual k (st.subst.apply m.type)) st.subst {} st.names ++
      generalizeAllCalls st residual (k + 1) ms

/-- The calls of solving and generalising members, and of checking the coverage of the choices in
them. -/
def concludeCalls (reg : Registry) (st : InferState) (ms : List Member) : List Call :=
  (ms.flatMap fun m => m.obligations.map fun ob => .apply st.subst ob.type) ++
    match solveAll reg st.subst ms with
    | .error _ => []
    | .ok solved => generalizeAllCalls st (solved.map (·.residual)) 0 ms ++
        ms.flatMap fun m => m.pending.flatMap (·.calls reg st.subst)

/-- The calls of inferring the members of a component together. -/
def calls (reg : Registry) (env : Env) (pool : Pool) (ds : List Definition) : List Call :=
  after (bindMembers ds) (InferState.start { supply := .pooled, pool } env) fun members st =>
    inferBodiesCalls reg members st ++
      match inferBodies reg 0 members st with
      | .error _ _ => []
      | .ok ms st => concludeCalls reg st ms

end Component

/-- The calls of checking a definition against its declared scheme. -/
def DeclaredTask.calls (reg : Registry) (env : Env) (pool : Pool) (task : DeclaredTask) :
    List Call :=
  let start := InferState.start { supply := .pooled, pool } env
  checkDeclaredCalls reg task.definition task.scheme task.allowed start ++
    after (checkDeclared reg task.definition task.scheme task.allowed) start fun _ st =>
      st.pending.flatMap (·.calls reg st.subst)

/-! ## Modules -/

/-- The calls of fixing the parameter of a trait in the scheme of an operation. -/
def Trait.specializeCalls (t : Trait) (head : Ty) (σ : Scheme) : List Call :=
  let fixed := Subst.empty.bindType t.param head
  .apply fixed σ.type :: σ.givens.map fun g => .apply fixed g.type

namespace Checker

/-- The calls of declaring an implementation: the parameter is fixed in the schemes of the
operations that are defined. -/
def implCalls (c : Checker) (block : ImplDecl) : List Call :=
  match c.registry.traits.get? block.traitName.node,
    c.registry.dataTypes.implHead? block.typeName.node with
  | some t, some (head, _) =>
    (block.methods.filterMap fun d => t.method? d.name.node).flatMap
      fun m => t.specializeCalls head m.scheme
  | _, _ => []

/-- The calls of declaring implementations in turn. -/
def implsCalls : Checker → List ImplDecl → List Call
  | _, [] => []
  | c, block :: blocks => c.implCalls block ++ (c.declareImpl block).implsCalls blocks

end Checker

/-- The checker before the implementations of a module are declared. -/
def Module.declareTraits (m : Module) : Checker :=
  let types := if m.dataDecls.any DataDecl.shadowsMaybe then m.dataDecls else .maybe :: m.dataDecls
  let effects := if m.effectDecls.any (·.name.node = "IO") then m.effectDecls
    else .io :: m.effectDecls
  m.traitDecls.foldl (Checker.declareTrait (m.traitDecls.map (·.name.node)))
    (effects.foldl Checker.declareEffect (({} : Checker).declareTypes types))

example (m : Module) : Checker.declareModule {} m =
    m.definitions.foldl Checker.declareDefinition
      (m.implDecls.foldl Checker.declareImpl m.declareTraits) := rfl

/-- The calls of checking a module. -/
def Module.calls (m : Module) (trace : Bool) : List Call :=
  let c := (Checker.declareModule {} m).setTracing trace
  m.declareTraits.implsCalls m.implDecls ++
    (c.componentRuns (Checker.wavesOf c.inferred)).flatMap (·.on Component.calls) ++
    c.inferComponents.taskRuns.flatMap (·.on DeclaredTask.calls)

/-! ## Calls of calls -/

/-- The call that follows the binding of a variable. -/
def Subst.follow? (s : Subst) : Var → Option Call
  | .type v => (s.types.get? v).map (.apply s)
  | .effect e => (s.effects.get? e).map (.applyRow s)

namespace Call

/-- A call makes another one. -/
inductive Makes : Call → Call → Prop
  /-- A type is resolved by following the bindings of its variables. -/
  | follow {s : Subst} {t : Ty} {x : Var} {c : Call} : x ∈ t.occurrences → s.follow? x = some c →
      Makes (.apply s t) c
  /-- A row is resolved by following the binding of its tail. -/
  | followTail {s : Subst} {r : Row} {e : EffectVar} {c : Call} : r.tail = some e →
      s.follow? (.effect e) = some c → Makes (.applyRow s r) c
  /-- Once two rows are equal, the tails in the other equations are resolved. -/
  | resolve {s s' : Subst} {a b : Row} {rest : List Equation} {u u' : Unifier} {eq : Equation}
      {e : EffectVar} : Unify.solveRows s a b u = .ok s' u' → eq ∈ rest →
        .effect e ∈ eq.occurrences →
      Makes (.solve s (.rows a b :: rest) u) (.applyRow s' (.ofVar e))
  /-- Once two rows are equal, the other equations are solved. -/
  | rows {s s' : Subst} {a b : Row} {rest : List Equation} {u u' : Unifier} :
      Unify.solveRows s a b u = .ok s' u' →
      Makes (.solve s (.rows a b :: rest) u) (.solve s' (Equation.resolveAllRows s' rest) u')
  /-- Types that are equal already need nothing. -/
  | identical {s : Subst} {a : Ty} {rest : List Equation} {u : Unifier} :
      Makes (.solve s (.types a a :: rest) u) (.solve s rest (u.note (.identical a)))
  /-- A variable is bound to a type and replaced in the other equations. -/
  | bind {s : Subst} {a b t : Ty} {v : TypeVar} {rest : List Equation} {u : Unifier} : a ≠ b →
      Unify.binding? a b = some (v, t) → v ∉ t.typeOccurrences →
      Makes (.solve s (.types a b :: rest) u)
        (.solve (s.bindType v t) (Equation.replaceAll v t rest) (u.note (.bind v t)))
  /-- Types of one shape are taken apart. -/
  | decompose {s : Subst} {a b : Ty} {shape : Shape} {parts rest : List Equation} {u : Unifier} :
      a ≠ b → Unify.binding? a b = none → Equation.decompose? a b = some (shape, parts) →
      Makes (.solve s (.types a b :: rest) u)
        (.solve s (parts ++ rest) (u.note (.decompose shape a b)))
  /-- The types of fields are those of the declaration at the arguments of the column. -/
  | fields {types : DataTypes} {rows : List Coverage.PatternRow} {name : String}
      {args columns : List Ty}
      {d : DataType} {con : Constructor} {t : Ty} :
        types.get? name = some d → con ∈ d.constructors →
      t ∈ con.fields → Makes (.missing types rows (.named name args :: columns))
        (.apply (d.argumentSubst args) t)
  /-- A column with all constructors of its type is split by constructor. -/
  | split {types : DataTypes} {rows : List Coverage.PatternRow} {t : Ty} {columns : List Ty}
      {c : Coverage.Case} : Coverage.isComplete (Coverage.casesOf types t)
        (Coverage.heads rows) = true →
      c ∈ Coverage.casesOf types t →
      Makes (.missing types rows (t :: columns))
        (.missing types (Coverage.specialize c rows) (c.fields ++ columns))
  /-- Of any other column only the rows that start with a catch-all remain. -/
  | drop {types : DataTypes} {rows : List Coverage.PatternRow} {t : Ty} {columns : List Ty} :
      Coverage.isComplete (Coverage.casesOf types t) (Coverage.heads rows) = false →
      Makes (.missing types rows (t :: columns)) (.missing types (Coverage.defaults rows) columns)
  /-- The check of a module makes the calls of its steps. -/
  | step {m : Module} {trace : Bool} {c : Call} : c ∈ m.calls trace → Makes (.check m trace) c

/-- There is no endless chain of calls that starts with the call. -/
def Returns (c : Call) : Prop :=
  Acc (fun c' c => Makes c c') c

/-- The call makes the other one, directly or through others. -/
def Reaches (c c' : Call) : Prop :=
  Relation.ReflTransGen Makes c c'

/-- The substitution that a call applies or extends. -/
def subst? : Call → Option Subst
  | .apply s _ => some s
  | .applyRow s _ => some s
  | .solve s _ _ => some s
  | .missing _ _ _ => none
  | .check _ _ => none

end Call

end RowTyping
