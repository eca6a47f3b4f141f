import RowTyping.Infer.Expr

/-!
# Checking against a declared signature

A definition with a declared scheme is inferred with the scheme's own variables. They are rigid: at
the end each must still be a variable, different from all others. Obligations that remain must be
among those the signature allows.
-/

namespace RowTyping.Infer

/-- Make types equal in turn. -/
def unifyEach (origin : Origin) : List Ty → List Ty → InferM Unit
  | t :: ts, u :: us => do
    unify t u origin
    unifyEach origin ts us
  | _, _ => return ()

/-- Infer a definition and make it fit a declared type. A function's body may have fewer effects
than declared; a value must have none. -/
def fitDeclared (reg : Registry) (d : Definition) (declared : Ty) : InferM Unit := do
  let origin : Origin := ⟨d.span, .declaredSignature⟩
  let arityError (expected : Nat) : TypingError :=
    .arity s!"the signature of `{d.name.node}`" expected d.params.length d.span
  if d.params.isEmpty then
    let typed ← expr reg d.body
    unify declared typed.type origin
    unifyRows .pure typed.effects ⟨d.span, .topLevelValue⟩
  else
    match declared with
    | .fn params result effects =>
      if params.length ≠ d.params.length then
        throw (arityError params.length)
      let (actual, body) ← function reg d.params d.body
      unifyEach origin params actual
      unify result body.type origin
      subeffect body.effects effects origin
    | _ => throw (arityError 0)

/-- The variables that declared type variables have come out as, if all are variables. -/
def rigidTypes? (s : Subst) (vs : List TypeVar) : Option (List TypeVar) :=
  vs.mapM fun v =>
    match s.apply (.var v) with
    | .var w => some w
    | _ => none

/-- The variables that declared effect variables have come out as, if all are variables. -/
def rigidEffects? (s : Subst) (es : List EffectVar) : Option (List EffectVar) :=
  es.mapM fun e =>
    match s.applyRow (.ofVar e) with
    | ⟨[], some w⟩ => some w
    | _ => none

/-- Whether all declared variables have come out as different variables. -/
def isRigid (s : Subst) (σ : Scheme) : Bool :=
  (rigidTypes? s σ.typeVars).any (·.Nodup) && (rigidEffects? s σ.effectVars).any (·.Nodup)

/-- Require that all declared variables have come out as different variables. -/
def requireRigid (σ : Scheme) (span : Span) : InferM Unit := do
  let s := (← get).subst
  if !isRigid s σ then
    let (declared, inferred) := σ.type.renderPair (s.apply σ.type)
    throw (.tooGeneral declared inferred span)

/-- Require that the obligations left are on declared variables and among the allowed ones. -/
def requireAllowed (vars : List TypeVar) (names : VarNames) (allowed : List Given) :
    List Obligation → Except TypingError Unit
  | [] => .ok ()
  | ob :: obs =>
    if ob.type.typeVars.any (!vars.contains ·) then
      .error (.ambiguousTrait ob.traitName ob.type ob.origin.span)
    else if !allowed.contains ob.toGiven then
      .error (.missingGiven (ob.toGiven.render names) ob.origin.span)
    else requireAllowed vars names allowed obs

/-- Check a definition against a declared scheme and hand back the obligations that implementations
met. -/
def checkDeclared (reg : Registry) (d : Definition) (σ : Scheme) (allowed : List Given) :
    InferM (List Resolution) := do
  fitDeclared reg d σ.type
  requireRigid σ d.span
  let obs ← takeObligations
  let s := (← get).subst
  let solved ← ofExcept (reg.traits.solve s obs)
  let vars := (rigidTypes? s σ.typeVars).getD []
  let names := (σ.typeVars.zip vars).foldl (fun (names : VarNames) (v, w) =>
    match σ.names.types.get? v with
    | some name => names.insert (.type w) name
    | none => names) {}
  let allowed := allowed.map fun g => { g with type := s.apply g.type }
  ofExcept (requireAllowed vars names allowed solved.residual)
  return solved.resolved

end RowTyping.Infer
