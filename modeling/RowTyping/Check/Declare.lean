import RowTyping.Check.State
import RowTyping.Syntax.Module

/-!
# Declarations

Types are declared before effects, effects before traits, traits before implementations, and
definitions last. Every module starts with the data type `Maybe` and the effect `IO`, unless it
declares its own. A declaration with an error is reported and left out; the others are still
declared.
-/

namespace RowTyping

/-! ## Predeclared names -/

/-- The data type of optional values. -/
def DataDecl.maybe : DataDecl where
  name := "Maybe"
  params := ["a"]
  variants := [
    { name := "Some", fields := [.named "a"] },
    { name := "None" }]

/-- The effect of printing. -/
def EffectDecl.io : EffectDecl where
  name := "IO"
  operations := [
    { name := "print", params := [.named "String"], result := .named "Unit" }]

/-- Whether a data type takes a name of the predeclared one. -/
def DataDecl.shadowsMaybe (d : DataDecl) : Bool :=
  d.name.node = "Maybe" || d.variants.any fun v => v.name.node = "Some" || v.name.node = "None"

namespace Checker

/-! ## Data types -/

/-- Draw variables for the parameters of a data type. -/
def freshParams (c : Checker) : List String → List (TypeVar × String) × Checker
  | [] => ([], c)
  | name :: names =>
    let (v, c) := c.freshTypeVar
    let (rest, c) := c.freshParams names
    ((v, name) :: rest, c)

/-- Declare the names and parameters of data types, so that their fields may mention each other. -/
def declareTypeNames (c : Checker) : List DataDecl → List (DataDecl × DataType) × Checker
  | [] => ([], c)
  | d :: ds =>
    let name := d.name.node
    if (c.registry.dataTypes.implHead? name).isSome then
      (c.declarationError s!"type `{name}` is defined more than once" d.name.span).declareTypeNames
        ds
    else
      let (params, c) := c.freshParams d.params
      let type : DataType := { name, params, span := d.name.span }
      let c := { c with registry := c.registry.insertData type }
      let (rest, c) := c.declareTypeNames ds
      ((d, type) :: rest, c)

/-- Declare the constructors of a data type after others of it. -/
def declareConstructors (c : Checker) (type : DataType) (sofar : List Constructor) :
    List Variant → List Constructor × Checker
  | [] => (sofar, c)
  | v :: vs =>
    let name := v.name.node
    if c.registry.dataTypes.hasConstructor name || sofar.any (·.name = name) then
      (c.declarationError s!"constructor `{name}` is defined more than once"
        v.name.span).declareConstructors type sofar vs
    else
      let scope := TypeScope.closed (type.params.map Prod.swap)
      match c.resolve scope (Resolve.types c.registry v.name.span v.fields) with
      | (.ok (fields, _), c) =>
        c.declareConstructors type (sofar ++ [{ name, fields, span := v.name.span }]) vs
      | (.error e, c) => (c.bindingFailed type.name e).declareConstructors type sofar vs

/-- Give a constructor its type as a value. -/
def bindConstructor (type : DataType) (c : Checker) (con : Constructor) : Checker :=
  if c.env.hasGlobal con.name then c.duplicate con.name con.span
  else c.bindGlobal con.name (type.constructorScheme con)

/-- Declare a data type whose name is declared already. -/
def declareData (c : Checker) (entry : DataDecl × DataType) : Checker :=
  let (constructors, c) := c.declareConstructors entry.2 [] entry.1.variants
  let type := { entry.2 with constructors }
  let c := constructors.foldl (bindConstructor type) c
  { c with registry := c.registry.insertData type }

/-- Declare data types. -/
def declareTypes (c : Checker) (ds : List DataDecl) : Checker :=
  let (entries, c) := c.declareTypeNames ds
  entries.foldl declareData c

/-! ## Effects -/

/-- The type of an operation, which performs its effect. -/
def operationType (reg : Registry) (effect : String) (o : OperationDecl) : ResolveM Ty := do
  let params ← Resolve.types reg o.span o.params
  let result ← Resolve.type reg o.span o.result
  return .fn params result (.closed [effect])

/-- Declare an operation of an effect. -/
def declareOperation (effect : String) (c : Checker) (o : OperationDecl) : Checker :=
  match c.resolve .empty (operationType c.registry effect o) with
  | (.error e, c) => c.bindingFailed o.name.node e
  | (.ok (t, scope), c) =>
    if c.env.hasGlobal o.name.node then c.duplicate o.name.node o.name.span
    else c.bindGlobal o.name.node (scope.scheme t [])

/-- Declare an effect. -/
def declareEffect (c : Checker) (d : EffectDecl) : Checker :=
  let name := d.name.node
  if c.registry.hasEffect name then
    c.declarationError s!"effect `{name}` is defined more than once" d.name.span
  else
    d.operations.foldl (declareOperation name)
      { c with registry := c.registry.insertEffect name }

/-! ## Traits -/

/-- The requirement a `given` clause states, if its trait and its variable are known. -/
def resolveBound (c : Checker) (scope : TypeScope) (traits : List String) (b : Bound) :
    Option Given × Checker :=
  let traitName := b.traitName.node
  let varName := b.typeVar.node
  if !traits.contains traitName then
    (none, c.declarationError s!"`given` names unknown trait `{traitName}`" b.traitName.span)
  else
    match scope.type? varName with
    | some v => (some ⟨traitName, .var v⟩, c)
    | none =>
      (none, c.declarationError
        s!"`given {traitName} {varName}` names a variable the signature does not mention"
        b.typeVar.span)

/-- The requirements of all `given` clauses, if each is in order. All errors are reported. -/
def resolveBounds (c : Checker) (scope : TypeScope) (traits : List String) :
    List Bound → Option (List Given) × Checker
  | [] => (some [], c)
  | b :: bs =>
    let (given, c) := c.resolveBound scope traits b
    let (rest, c) := c.resolveBounds scope traits bs
    (given.bind fun g => rest.map (g :: ·), c)

/-- The requirements of `given` clauses up to the first that is not in order. -/
def resolveBoundsUntilError (c : Checker) (scope : TypeScope) (traits : List String) :
    List Bound → Option (List Given) × Checker
  | [] => (some [], c)
  | b :: bs =>
    match c.resolveBound scope traits b with
    | (none, c) => (none, c)
    | (some g, c) =>
      let (rest, c) := c.resolveBoundsUntilError scope traits bs
      (rest.map (g :: ·), c)

end Checker

mutual

/-- The numbers of arguments a name is applied to in a written type. -/
def TypeExpr.aritiesOf (name : String) : TypeExpr → List Nat
  | .named n => if n = name then [0] else []
  | .applied n args =>
    (if n = name then [args.length] else []) ++ TypeExpr.aritiesOfAll name args
  | .function params result _ => TypeExpr.aritiesOfAll name params ++ result.aritiesOf name
  | .tuple elems => TypeExpr.aritiesOfAll name elems

/-- The numbers of arguments a name is applied to in written types. -/
def TypeExpr.aritiesOfAll (name : String) : List TypeExpr → List Nat
  | [] => []
  | t :: ts => t.aritiesOf name ++ TypeExpr.aritiesOfAll name ts

end

/-- The numbers of arguments the parameter of a trait is applied to, in increasing order. -/
def TraitDecl.paramArities (d : TraitDecl) : List Nat :=
  Sorted.ofList (d.methods.flatMap fun m => m.type.node.aritiesOf d.param.node)

namespace Checker

/-- Declare an operation of a trait after others of it. -/
def declareMethod (traits : List String) (d : TraitDecl) (param : TypeVar)
    (state : List Method × Checker) (m : MethodDecl) : List Method × Checker :=
  let (methods, c) := state
  let name := m.name.node
  if methods.any (·.name = name) then
    (methods,
      c.declarationError s!"`{name}` is declared twice in trait `{d.name.node}`" m.name.span)
  else
    let start := TypeScope.empty.insertType d.param.node param
    match c.resolve start (Resolve.type c.registry m.type.span m.type.node) with
    | (.error e, c) => (methods, c.bindingFailed name e)
    | (.ok (t, scope), c) =>
      match c.resolveBounds scope traits m.given with
      | (none, c) => (methods, c)
      | (some givens, c) =>
        let scheme := scope.scheme t (groupByTrait (⟨d.name.node, .var param⟩ :: givens))
        if c.env.hasGlobal name then (methods, c.duplicate name m.name.span)
        else
          (methods ++ [{ name, scheme, span := m.span }],
            (c.bindGlobal name scheme).addSignature name scheme m.span)

/-- Declare a trait whose parameter takes the given number of arguments. -/
def declareTraitAt (c : Checker) (traits : List String) (d : TraitDecl) (paramArity : Nat) :
    Checker :=
  let (param, c) := c.freshTypeVar
  let (methods, c) := d.methods.foldl (declareMethod traits d param) ([], c)
  { c with
    registry := c.registry.insertTrait
      { name := d.name.node, param, paramName := d.param.node, paramArity, methods
        span := d.name.span } }

/-- Declare a trait. Requirements may mention any of the given traits. -/
def declareTrait (traits : List String) (c : Checker) (d : TraitDecl) : Checker :=
  let name := d.name.node
  if (c.registry.traits.get? name).isSome then
    c.declarationError s!"trait `{name}` is defined more than once" d.name.span
  else
    match d.paramArities with
    | [] => c.declareTraitAt traits d 0
    | [n] => c.declareTraitAt traits d n
    | uses =>
      let uses := " and ".intercalate (uses.map toString)
      c.declarationError
        (s!"trait parameter `{d.param.node}` of `{name}` is applied to {uses} arguments " ++
          "in different methods")
        d.param.span

/-! ## Implementations -/

end Checker

/-- The scheme of an operation when the parameter of its trait is the given type. Requirements on
the type itself are met by the implementation and left out. -/
def Trait.specialize (t : Trait) (head : Ty) (σ : Scheme) : Scheme :=
  let fixed := Subst.empty.bindType t.param head
  { typeVars := σ.typeVars.filter (· != t.param)
    effectVars := σ.effectVars
    givens := (σ.givens.map fun g => { g with type := fixed.apply g.type }).filter
      (·.type.headVar?.isSome)
    names := { σ.names with types := σ.names.types.erase t.param }
    type := fixed.apply σ.type }

namespace Checker

/-- Add the definition of an operation to an implementation. The names of the operations defined so
far are handed on. -/
def declareImplMethod (block : ImplDecl) (t : Trait) (head : Ty)
    (state : List String × Checker) (d : Definition) : List String × Checker :=
  let (provided, c) := state
  let name := d.name.node
  let traitName := block.traitName.node
  if provided.contains name then
    (provided, c.declarationError
      s!"`{name}` is defined twice in `impl {traitName} {block.typeName.node}`" d.name.span)
  else
    let provided := provided ++ [name]
    match t.method? name with
    | none =>
      (provided, c.declarationError
        s!"`{name}` is not an operation of trait `{traitName}`" d.name.span)
    | some m =>
      let scheme := t.specialize head m.scheme
      let task : DeclaredTask :=
        { label := block.methodLabel name, definition := d, scheme, allowed := scheme.givens
          isReported := false }
      (provided, { c with declared := c.declared ++ [task] })

/-- Report an operation that an implementation does not define. -/
def requireMethod (block : ImplDecl) (provided : List String) (c : Checker) (m : Method) :
    Checker :=
  if provided.contains m.name then c
  else
    c.declarationError
      s!"`impl {block.traitName.node} {block.typeName.node}` is missing operation `{m.name}`"
      block.typeName.span

/-- Declare an implementation of a trait for a type. -/
def declareImplOf (c : Checker) (block : ImplDecl) (t : Trait) (head : Ty) : Checker :=
  let (provided, c) := block.methods.foldl (declareImplMethod block t head) ([], c)
  let c := t.methods.foldl (requireMethod block provided) c
  { c with
    registry := c.registry.insertImpl
      { traitName := block.traitName.node, typeName := block.typeName.node, methods := provided
        span := block.typeName.span } }

/-- Declare an implementation. -/
def declareImpl (c : Checker) (block : ImplDecl) : Checker :=
  let traitName := block.traitName.node
  let typeName := block.typeName.node
  let typeSpan := block.typeName.span
  match c.registry.traits.get? traitName with
  | none => c.declarationError s!"impl of unknown trait `{traitName}`" block.traitName.span
  | some t =>
    match c.registry.dataTypes.implHead? typeName with
    | none =>
      c.declarationError s!"impl of `{traitName}` for unknown type `{typeName}`" typeSpan
    | some (head, arity) =>
      if (c.registry.traits.impl? traitName typeName).isSome then
        c.declarationError s!"`{traitName}` is implemented for `{typeName}` more than once" typeSpan
      else if arity ≠ t.paramArity then
        c.report {
          severity := .error
          category := .kindMismatch
          message := s!"`{traitName}` is implemented for types taking {t.paramArity} " ++
            s!"parameter(s), but `{typeName}` takes {arity}"
          location := typeSpan.inSource? }
      else c.declareImplOf block t head

/-! ## Definitions -/

/-- Declare a definition with a signature. -/
def declareSigned (c : Checker) (d : Definition) (written : Spanned TypeExpr) : Checker :=
  let name := d.name.node
  match c.resolve .empty (Resolve.type c.registry written.span written.node) with
  | (.error e, c) => c.bindingFailed name e
  | (.ok (t, scope), c) =>
    match c.resolveBoundsUntilError scope c.registry.traits.traits.keys d.given with
    | (none, c) => c.markFailed name
    | (some givens, c) =>
      let scheme := scope.scheme t (groupByTrait givens)
      if c.env.hasGlobal name then c.duplicate name d.name.span
      else
        let c := c.bindGlobal name scheme
        let task : DeclaredTask :=
          { label := name, definition := d, scheme, allowed := scheme.givens, isReported := true }
        { c with declared := c.declared ++ [task] }

/-- Declare a definition. -/
def declareDefinition (c : Checker) (d : Definition) : Checker :=
  let name := d.name.node
  let isInferred := c.inferred.any (·.name.node = name)
  match d.declared with
  | none =>
    if c.env.hasGlobal name || isInferred then c.duplicate name d.name.span
    else { c with inferred := c.inferred ++ [d] }
  | some written =>
    if isInferred then c.duplicate name d.name.span else c.declareSigned d written

/-! ## Modules -/

/-- Declare everything in a module. -/
def declareModule (c : Checker) (m : Module) : Checker :=
  let types := m.dataDecls
  let effects := m.effectDecls
  let traits := m.traitDecls
  let types := if types.any DataDecl.shadowsMaybe then types else .maybe :: types
  let effects := if effects.any (·.name.node = "IO") then effects else .io :: effects
  let c := c.declareTypes types
  let c := effects.foldl declareEffect c
  let c := traits.foldl (declareTrait (traits.map (·.name.node))) c
  let c := m.implDecls.foldl declareImpl c
  m.definitions.foldl declareDefinition c

end Checker

end RowTyping
