import RowTyping.Syntax.Expr

/-!
# Modules

A module is a list of declarations: definitions, data types, traits, effects and implementations.
-/

namespace RowTyping

/-- A requirement in a `given` clause, such as `Functor f`. -/
structure Bound where
  /-- The trait that is required. -/
  traitName : Spanned String
  /-- The type variable it is required of. -/
  typeVar : Spanned String
deriving Repr, Inhabited

/-- The definition of a function, or of a value if there are no parameters. -/
structure Definition where
  /-- The defined name. -/
  name : Spanned String
  /-- The parameters. -/
  params : List Pattern := []
  /-- The declared type. -/
  declared : Option (Spanned TypeExpr) := none
  /-- The declared requirements. -/
  given : List Bound := []
  /-- The defining expression. -/
  body : Expr
  /-- Where the definition stands. -/
  span : Span := .synthetic
deriving Repr, Inhabited

/-- A constructor of a data type with the types of its fields. -/
structure Variant where
  /-- The name of the constructor. -/
  name : Spanned String
  /-- The types of its fields. -/
  fields : List TypeExpr := []
deriving Repr, Inhabited

/-- The declaration of a data type by its constructors. -/
structure DataDecl where
  /-- The declared name. -/
  name : Spanned String
  /-- The type parameters. -/
  params : List String := []
  /-- The constructors. -/
  variants : List Variant
deriving Repr, Inhabited

/-- An operation that a trait requires. -/
structure MethodDecl where
  /-- The name of the operation. -/
  name : Spanned String
  /-- Its type. -/
  type : Spanned TypeExpr
  /-- Requirements beyond the trait itself. -/
  given : List Bound := []
  /-- Where the operation is declared. -/
  span : Span := .synthetic
deriving Repr, Inhabited

/-- The declaration of a trait. -/
structure TraitDecl where
  /-- The declared name. -/
  name : Spanned String
  /-- The parameter that stands for an implementing type. -/
  param : Spanned String
  /-- The required operations. -/
  methods : List MethodDecl
deriving Repr, Inhabited

/-- An operation of an effect. -/
structure OperationDecl where
  /-- The name of the operation. -/
  name : Spanned String
  /-- The types of its parameters. -/
  params : List TypeExpr := []
  /-- The type of its result. -/
  result : TypeExpr
  /-- Where the operation is declared. -/
  span : Span := .synthetic
deriving Repr, Inhabited

/-- The declaration of an effect by its operations. -/
structure EffectDecl where
  /-- The declared name. -/
  name : Spanned String
  /-- The operations. -/
  operations : List OperationDecl
deriving Repr, Inhabited

/-- An implementation of a trait for a type constructor. -/
structure ImplDecl where
  /-- The implemented trait. -/
  traitName : Spanned String
  /-- The type it is implemented for. -/
  typeName : Spanned String
  /-- The definitions of the operations. -/
  methods : List Definition
deriving Repr, Inhabited

/-- The name under which diagnostics speak of an operation of an implementation. -/
def ImplDecl.methodLabel (block : ImplDecl) (method : String) : String :=
  s!"{method} (impl {block.traitName.node} {block.typeName.node})"

/-- A declaration. -/
inductive Declaration where
  | definition (d : Definition)
  | data (d : DataDecl)
  | trait (d : TraitDecl)
  | effect (d : EffectDecl)
  | impl (d : ImplDecl)
deriving Repr, Inhabited

/-- A module. -/
structure Module where
  /-- The declarations in order. -/
  declarations : List (Spanned Declaration)
  /-- Where the module stands. -/
  span : Span := .synthetic
deriving Repr, Inhabited

namespace Module

/-- The definitions of a module, in order. -/
def definitions (m : Module) : List Definition :=
  m.declarations.filterMap fun d =>
    match d.node with
    | .definition d => some d
    | _ => none

/-- The data types a module declares, in order. -/
def dataDecls (m : Module) : List DataDecl :=
  m.declarations.filterMap fun d =>
    match d.node with
    | .data d => some d
    | _ => none

/-- The traits a module declares, in order. -/
def traitDecls (m : Module) : List TraitDecl :=
  m.declarations.filterMap fun d =>
    match d.node with
    | .trait d => some d
    | _ => none

/-- The effects a module declares, in order. -/
def effectDecls (m : Module) : List EffectDecl :=
  m.declarations.filterMap fun d =>
    match d.node with
    | .effect d => some d
    | _ => none

/-- The implementations of a module, in order. -/
def implDecls (m : Module) : List ImplDecl :=
  m.declarations.filterMap fun d =>
    match d.node with
    | .impl d => some d
    | _ => none

end Module

end RowTyping
