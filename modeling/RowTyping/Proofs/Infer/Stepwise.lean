import RowTyping.Proofs.Infer.Messages
import RowTyping.Syntax.FreeNames

/-!
# Inference as a sequence of steps

Every function of inference is put together from a few primitive steps: drawing a variable, a
unification, a change of one field of the state. `Stepwise` says so, once for all functions. What
holds for the primitive steps and is kept when computations follow each other then holds for whole
inferences by an induction on `Stepwise`.

Between the steps a computation may look at the substitution, at the names of variables and at the
local scopes. It never looks at its supply, at pending obligations or choices, or at what it has
recorded. Of the globals it sees only the types of the names it looks up, which `Stepwise` counts
together with the names it binds.
-/

namespace RowTyping

/-! ## Written types -/

namespace Resolve

theorem typeVar_eq (span : Span) (name : String) (r : Resolver) :
    typeVar span name r = match r.scope.type? name with
      | some v => .ok v r
      | none => if r.scope.isOpen then .ok r.fresh.typeVar.1
          { r with fresh := r.fresh.typeVar.2, scope := r.scope.insertType name r.fresh.typeVar.1 }
        else .error (.unknownType name span) r := by
  refine (bind_of_ok rfl).trans ?_
  cases r.scope.type? name with
  | some v => rfl
  | none => cases r.scope.isOpen <;> rfl

theorem effectVar_eq (span : Span) (name : String) (r : Resolver) :
    effectVar span name r = match r.scope.effect? name with
      | some e => .ok e r
      | none => if r.scope.isOpen then .ok r.fresh.effectVar.1
          { r with
            fresh := r.fresh.effectVar.2
            scope := r.scope.insertEffect name r.fresh.effectVar.1 }
        else .error (.unknownEffect name span) r := by
  refine (bind_of_ok rfl).trans ?_
  cases r.scope.effect? name with
  | some e => rfl
  | none => cases r.scope.isOpen <;> rfl

/-- The computation is put together from look-ups of variables. -/
inductive Stepwise : {α : Type} → ResolveM α → Prop
  | pure {α : Type} (a : α) : Stepwise (Pure.pure a)
  | throw {α : Type} {e : TypingError} (h : e.SpeaksPlainly) :
      Stepwise (MonadExcept.throw e : ResolveM α)
  | bind {α β : Type} {x : ResolveM α} {f : α → ResolveM β} (h : Stepwise x)
      (hf : ∀ a, Stepwise (f a)) :
    Stepwise (x >>= f)
  | typeVar (span : Span) (name : String) : Stepwise (typeVar span name)
  | effectVar (span : Span) (name : String) : Stepwise (effectVar span name)

namespace Stepwise

variable {reg : Registry} {span : Span}

theorem applied (name : String) (args : List Ty) : Stepwise (applied reg span name args) := by
  rw [Resolve.applied]
  split
  · exact .bind (.typeVar span name) fun _ => .pure _
  · split
    · split
      · exact .pure _
      · exact .throw trivial
    · split
      · split
        · exact .pure _
        · exact .throw trivial
      · exact .throw trivial

theorem effects (effect : EffectExpr) : Stepwise (effects reg span effect) := by
  cases effect with
  | pure => exact .pure _
  | var name => exact .bind (.effectVar span name) fun _ => .pure _
  | row labels rest =>
    simp only [Resolve.effects]
    split
    · exact .throw trivial
    · split
      · exact .bind (.effectVar span _) fun _ => .pure _
      · exact .pure _

mutual

theorem type (written : TypeExpr) : Stepwise (type reg span written) := by
  cases written with
  | named name => exact applied name []
  | applied name args => exact (types args).bind fun _ => applied name _
  | function params result effect =>
    exact (types params).bind fun _ => (type result).bind fun _ => (effects effect).bind
      fun _ => .pure _
  | tuple elems => exact (types elems).bind fun _ => .pure _

theorem types (written : List TypeExpr) : Stepwise (types reg span written) := by
  cases written with
  | nil => exact .pure _
  | cons t ts => exact (type t).bind fun _ => (types ts).bind fun _ => .pure _

end

/-- A written type that cannot be resolved is never reported as an unbound variable. -/
theorem speaksPlainly {α : Type} {x : ResolveM α} (h : Stepwise x) (r : Resolver) :
    Ends x r (fun _ _ => True) TypingError.SpeaksPlainly := by
  induction h generalizing r with
  | pure => exact .pure trivial
  | throw h => exact .throw h
  | bind _ _ ih ihf => exact (ih r).bind fun a r' _ => ihf a r'
  | typeVar | effectVar =>
    refine .get_bind ?_
    split
    · exact .pure trivial
    · split
      · exact Ends.bind (Q := fun _ _ => True) (.set trivial) fun _ _ _ => .pure trivial
      · exact .throw trivial

end Stepwise

end Resolve

/-! ## Steps of inference -/

namespace Infer

/-- The computation is put together from primitive steps. Where the names `bound` have local types,
it looks up the names `looks` besides them, and if it succeeds it has given types to the names
`binds` in the innermost scope. -/
inductive Stepwise : (bound binds looks : List String) → {α : Type} → InferM α → Prop
  | pure {bound : List String} {α : Type} (a : α) : Stepwise bound [] [] (Pure.pure a)
  | throw {bound binds looks : List String} {α : Type} {e : TypingError} (h : e.SpeaksPlainly) :
    Stepwise bound binds looks (MonadExcept.throw e : InferM α)
  | seq {bound binds binds' looks looks' : List String} {α β : Type} {x : InferM α}
      {f : α → InferM β}
    (h : Stepwise bound binds looks x)
    (hf : ∀ a st st', x st = .ok a st' → Stepwise (binds ++ bound) binds' looks' (f a)) :
    Stepwise bound (binds ++ binds') (looks ++ looks') (x >>= f)
  | read {bound binds looks : List String} {α : Type} {f : InferState → InferM α}
    (hf : ∀ st st', st.subst = st'.subst → st.names = st'.names → st.env.scopes = st'.env.scopes →
      f st = f st')
    (h : ∀ st, Stepwise bound binds looks (f st)) : Stepwise bound binds looks (get >>= f)
  | lookup {bound : List String} {α : Type} {f : InferState → InferM α} {g : Scheme → InferM α}
    (name : String) (span : Span)
    (hnone : ∀ st, st.env.get? name = none → f st = MonadExcept.throw (.unboundVariable name span))
    (hsome : ∀ st σ, st.env.get? name = some σ → f st = g σ) (h : ∀ σ, Stepwise bound [] [] (g σ)) :
    Stepwise bound [] (if name ∈ bound then [] else [name]) (get >>= f)
  | tryCatch {bound : List String} {α : Type} {x : InferM α} {handle : TypingError → InferM α}
    (h : Stepwise bound [] [] x)
    (hhandle : ∀ e, handle e ≠ MonadExcept.throw e → Stepwise bound [] [] (handle e)) :
    Stepwise bound [] [] (MonadExcept.tryCatch x handle)
  | withScope {bound binds looks : List String} {α : Type} {x : InferM α}
    (h : Stepwise bound binds looks x) : Stepwise bound [] looks (withScope x)
  | freshTypeVar {bound : List String} : Stepwise bound [] [] freshTypeVar
  | freshEffectVar {bound : List String} : Stepwise bound [] [] freshEffectVar
  | unify {bound : List String} (expected actual : Ty) (origin : Origin) :
    Stepwise bound [] [] (unify expected actual origin)
  | unifyRows {bound : List String} (expected actual : Row) (origin : Origin) :
    Stepwise bound [] [] (unifyRows expected actual origin)
  | resolve {bound : List String} (reg : Registry) (written : Spanned TypeExpr) :
    Stepwise bound [] [] (resolve reg written)
  | record {bound : List String} (rule : InferRule) (subject : String) (t : Ty) (detail : String)
    (span : Span) : Stepwise bound [] [] (record rule subject t detail span)
  | recordCases {bound : List String} (cases : PendingCases) :
      Stepwise bound [] [] (recordCases cases)
  | constrain {bound : List String} (t : Ty) (traitName : String) (origin : Origin) :
    Stepwise bound [] [] (constrain t traitName origin)
  | defer {bound : List String} (obs : List Obligation) : Stepwise bound [] [] (defer obs)
  | takeObligations {bound : List String} : Stepwise bound [] [] takeObligations
  | bindName {bound : List String} (name : String) (σ : Scheme) :
    Stepwise bound [name] [] (Infer.bind name σ)

/-! ### Runs of single steps -/

theorem runUnify_eq (step : Subst → UnifyM Subst) (explain : Subst → UnifyError → TypingError)
    (st : InferState) : runUnify step explain st = match step st.subst st.unifier with
      | .ok s u => .ok () { st with subst := s, unifier := u }
      | .error e u => .error (explain st.subst e) { st with unifier := u } := by
  refine (bind_of_ok rfl).trans ?_
  rw [EStateM.run]
  cases step st.subst st.unifier <;> rfl

theorem resolve_eq (reg : Registry) (written : Spanned TypeExpr) (st : InferState) :
    resolve reg written st =
      match Resolve.type reg written.span written.node
        { fresh := st.unifier.fresh, scope := .empty } with
      | .ok t r => .ok t
        { st with
          unifier := { st.unifier with fresh := r.fresh }
          names := st.names.merge r.scope.names }
      | .error e r => .error e { st with unifier := { st.unifier with fresh := r.fresh } } := by
  refine (bind_of_ok rfl).trans ?_
  dsimp only [EStateM.run]
  cases Resolve.type reg written.span written.node
    { fresh := st.unifier.fresh, scope := .empty } <;> rfl

theorem withScope_eq {α : Type} (x : InferM α) (st : InferState) :
    withScope x st = viewed closeScope (x { st with env := st.env.push }) := by
  rw [withScope]
  cases x { st with env := st.env.push } <;> rfl

/-- Fresh types are always found, as many as asked for. -/
theorem freshTypes_spec {α : Type} (as : List α) (st : InferState) :
    ∃ ts st', freshTypes as st = .ok ts st' ∧ ts.length = as.length ∧ st'.env = st.env := by
  induction as generalizing st with
  | nil => exact ⟨[], st, rfl, rfl, rfl⟩
  | cons a as ih =>
    let st₁ : InferState :=
      { st with unifier := { st.unifier with fresh := st.unifier.fresh.typeVar.2 } }
    obtain ⟨ts, st', hts, hlen, henv⟩ := ih st₁
    refine ⟨.var st.unifier.fresh.typeVar.1 :: ts, st', ?_, by simp [hlen], henv⟩
    rw [freshTypes, bind_eq_ok]
    exact ⟨_, st₁, rfl, bind_eq_ok.mpr ⟨ts, st', hts, rfl⟩⟩

namespace Stepwise

variable {bound binds binds' looks looks' : List String} {α β : Type} {x : InferM α}
  {f : α → InferM β} {reg : Registry}

theorem bind (h : Stepwise bound binds looks x)
    (hf : ∀ a, Stepwise (binds ++ bound) binds' looks' (f a)) :
    Stepwise bound (binds ++ binds') (looks ++ looks') (x >>= f) :=
  .seq h fun a _ _ _ => hf a

theorem throw_bind {e : TypingError} {f : α → InferM β} (h : e.SpeaksPlainly) :
    Stepwise bound binds looks (MonadExcept.throw e >>= f) :=
  .throw (e := e) h

/-- A step that has nothing to do with names comes first. -/
theorem after (h : Stepwise bound [] [] x) (hf : ∀ a, Stepwise bound binds looks (f a)) :
    Stepwise bound binds looks (x >>= f) :=
  h.bind hf

/-- What follows has nothing to do with names. -/
theorem andThen (h : Stepwise bound binds looks x)
    (hf : ∀ a, Stepwise (binds ++ bound) [] [] (f a)) :
    Stepwise bound binds looks (x >>= f) := by
  have hseq := h.bind hf
  rwa [List.append_nil, List.append_nil] at hseq

theorem ofExcept {r : Except TypingError α} (h : ∀ e, r = .error e → e.SpeaksPlainly) :
    Stepwise bound [] [] (ofExcept r) := by
  cases r with
  | error e => exact .throw (h e rfl)
  | ok a => exact .pure a

/-! ### Operations -/

theorem freshType : Stepwise bound [] [] freshType :=
  .after .freshTypeVar fun _ => .pure _

theorem freshRow : Stepwise bound [] [] freshRow :=
  .after .freshEffectVar fun _ => .pure _

theorem freshTypes (as : List α) : Stepwise bound [] [] (freshTypes as) := by
  induction as with
  | nil => exact .pure _
  | cons a as ih => exact freshType.after fun _ => ih.after fun _ => .pure _

theorem apply (t : Ty) : Stepwise bound [] [] (apply t) :=
  .read (fun _ _ hs _ _ => by rw [hs]) fun _ => .pure _

theorem applyRow (r : Row) : Stepwise bound [] [] (applyRow r) :=
  .read (fun _ _ hs _ _ => by rw [hs]) fun _ => .pure _

theorem openRow (r : Row) : Stepwise bound [] [] (openRow r) := by
  rw [Infer.openRow]
  split
  · exact .after .freshEffectVar fun _ => .pure _
  · exact .pure _

theorem subeffect (sub sup : Row) (origin : Origin) :
    Stepwise bound [] [] (subeffect sub sup origin) :=
  (applyRow sub).after fun _ => (openRow _).after fun _ => .unifyRows _ _ _

theorem subeffects (sup : Row) (origin : Origin) (rows : List Row) :
    Stepwise bound [] [] (subeffects sup origin rows) := by
  induction rows with
  | nil => exact .pure _
  | cons r rows ih => exact (subeffect r sup origin).after fun _ => ih

theorem join (rows : List Row) (origin : Origin) : Stepwise bound [] [] (join rows origin) := by
  refine .read (fun _ _ hs _ _ => by rw [hs]) fun st => ?_
  dsimp only
  split
  · exact .pure _
  · exact .pure _
  · exact freshRow.after fun _ => (subeffects _ _ _).after fun _ => applyRow _

theorem constrainGivens (s : Subst) (span : Span) (givens : List Given) :
    Stepwise bound [] [] (constrainGivens s span givens) := by
  induction givens with
  | nil => exact .pure _
  | cons g givens ih => exact .after (.constrain _ _ _) fun _ => ih

theorem renewTypes (s : Subst) (vs : List TypeVar) : Stepwise bound [] [] (renewTypes s vs) := by
  induction vs generalizing s with
  | nil => exact .pure _
  | cons v vs ih => exact freshType.after fun _ => ih _

theorem renewEffects (s : Subst) (es : List EffectVar) :
    Stepwise bound [] [] (renewEffects s es) := by
  induction es generalizing s with
  | nil => exact .pure _
  | cons e es ih => exact freshRow.after fun _ => ih _

theorem instantiate (σ : Scheme) (span : Span) : Stepwise bound [] [] (instantiate σ span) := by
  rw [Infer.instantiate]
  split
  · exact .pure _
  · refine (renewTypes _ _).after fun _ => (renewEffects _ _).after fun _ =>
      (constrainGivens _ _ _).after fun _ => ?_
    split
    · exact (openRow _).after fun _ => .pure _
    · exact .pure _

/-! ### Patterns -/

mutual

theorem pattern (reg : Registry) {bound : List String} (p : Pattern) (t : Ty) :
    Stepwise bound p.boundNames [] (pattern reg p t) := by
  cases p with
  | wildcard => exact .pure _
  | var span name => exact .bindName name _
  | lit span value => exact .unify _ _ _
  | constructor span name args =>
    rw [Infer.pattern]
    split
    · exact .throw trivial
    · rename_i d c _
      by_cases hlen : c.fields.length = args.length
      · simp only [hlen, ne_eq, not_true_eq_false, if_false]
        exact (renewTypes _ _).after fun s => .after (.unify _ _ _) fun _ =>
          patterns reg args _ (by rw [List.length_map, hlen])
      · simp only [hlen, ne_eq, not_false_eq_true, if_true]
        exact .throw_bind (speaksPlainly_constructorArity _ _ _ _)
  | tuple span elems =>
    -- there are as many fresh types as there are patterns
    refine .seq (freshTypes elems) fun ts st st' hts => .after (.unify _ _ _)
      fun _ => patterns reg elems ts ?_
    obtain ⟨ts', st₁, hts', hlen, -⟩ := freshTypes_spec elems st
    cases hts.symm.trans hts'
    exact hlen

theorem patterns (reg : Registry) {bound : List String} (ps : List Pattern) (ts : List Ty)
    (h : ts.length = ps.length) :
    Stepwise bound (Pattern.boundNamesAll ps) [] (patterns reg ps ts) := by
  cases ps with
  | nil =>
    rw [Infer.patterns]
    · exact .pure _
    · simp
  | cons p ps =>
    cases ts with
    | nil => cases h
    | cons t ts =>
      rw [Infer.patterns]
      exact (pattern reg p t).bind fun _ => patterns reg ps ts (Nat.succ.inj h)

end

theorem parameters (ps : List Pattern) :
    Stepwise bound (Pattern.boundNamesAll ps) [] (parameters reg ps) := by
  induction ps generalizing bound with
  | nil => exact .pure _
  | cons p ps ih =>
    exact freshType.after fun _ => (pattern reg p _).bind fun _ => ih.andThen fun _ => .pure _

/-! ### Local definitions and calls -/

theorem splitObligations (t : Ty) : Stepwise bound [] [] (splitObligations t) := by
  refine .read (fun _ _ hs _ hscopes => by simp only [Env.freeVars, hs, hscopes]) fun _ =>
    .after .takeObligations fun _ => .after (.defer _) fun _ => .pure _

theorem bindGeneralized (span : Span) (name : String) (t : Ty) :
    Stepwise bound [name] [] (bindGeneralized span name t) := by
  refine (splitObligations t).after fun ⟨fixed, inner⟩ =>
    .read (fun _ _ hs hnames _ => by simp only [hs, hnames]) fun st => ?_
  split
  · rename_i hgeneralize
    exact .throw (speaksPlainly_generalize hgeneralize)
  · exact .after (.defer _) fun _ => .after (.record _ _ _ _ _) fun _ => .bindName _ _

theorem bindLet (p : Pattern) (value : Expr) (t : Ty) :
    Stepwise bound p.boundNames [] (bindLet reg p value t) := by
  cases p with
  | var span name =>
    rw [Infer.bindLet]
    split
    · exact bindGeneralized span name t
    · exact (apply t).after fun _ => .bindName _ _
  | wildcard | lit | constructor | tuple => exact pattern reg _ t

theorem arguments (i : Nat) (params : List Ty) (args : List (Ty × Span)) :
    Stepwise bound [] [] (arguments i params args) := by
  induction params generalizing i args with
  | nil =>
    rw [Infer.arguments]
    · exact .pure _
    · simp
  | cons param params ih =>
    cases args with
    | nil =>
      rw [Infer.arguments]
      · exact .pure _
      · simp
    | cons arg args =>
      rw [Infer.arguments]
      exact .after (.unify _ _ _) fun _ => ih _ _

theorem callee (func : Expr) (t : Ty) (args : List Expr) (span : Span) :
    Stepwise bound [] [] (callee func t args span) := by
  refine (apply t).after fun t => ?_
  split
  · split
    · exact .throw_bind (speaksPlainly_calleeName _ _ _ _)
    · exact .pure _
  · exact (freshTypes args).after fun _ => freshType.after fun _ => freshRow.after fun _ =>
      .after (.unify _ _ _) fun _ => .pure _

theorem unifyArm (first : Ty) (firstSpan : Span) (other : Ty) (span : Span) :
    Stepwise bound [] [] (unifyArm first firstSpan other span) := by
  refine .tryCatch (.unify _ _ _) fun e he => ?_
  split
  · exact (apply _).after fun _ => (apply _).after fun _ => .throw trivial
  · rename_i hother
    refine (he ?_).elim
    split
    · exact (hother _ _ _ _ _ rfl).elim
    · rfl

/-! ### Expressions -/

mutual

theorem expr {bound : List String} (e : Expr) :
    Stepwise bound [] (e.freeReferences bound) (expr reg e) := by
  cases e with
  | lit span value => exact .after (.record _ _ _ _ _) fun _ => .pure _
  | var span name =>
    refine .lookup (g := fun σ => do
        let t ← Infer.instantiate σ span
        Infer.record .varLookup name t "instantiate" span
        return { type := t }) name span (fun st h => ?_) (fun st σ h => ?_) fun σ => ?_
    · simp only [h]
    · simp only [h]
    · exact (instantiate _ _).after fun _ => .after (.record _ _ _ _ _) fun _ => .pure _
  | lambda span params body =>
    exact .andThen (.withScope
      ((parameters params).bind fun _ => (expr body).andThen fun _ => .pure _))
      fun _ => (openRow _).after fun _ => .after (.record _ _ _ _ _) fun _ => .pure _
  | call span func args =>
    exact (expr func).bind fun _ => (exprs args).andThen fun _ => (callee _ _ _ _).after fun _ =>
      (arguments _ _ _).after fun _ => (join _ _).after fun _ =>
        .after (.record _ _ _ _ _) fun _ => .pure _
  | letIn span p stated value body =>
    rw [Infer.expr]
    refine (expr value).bind fun typed => ?_
    have hrest : Stepwise bound [] (body.freeReferences (p.boundNames ++ bound)) (do
        let rest ← Infer.withScope do
          Infer.bindLet reg p value typed.type
          Infer.expr reg body
        let effects ← Infer.join [typed.effects, rest.effects] ⟨span, .callEffects⟩
        Infer.record .letIn "let" rest.type "" span
        return ({ type := rest.type, effects } : Typed)) :=
      .andThen (.withScope ((bindLet _ _ _).bind fun _ => expr body))
        fun _ => (join _ _).after fun _ =>
        .after (.record _ _ _ _ _) fun _ => .pure _
    cases stated with
    | none => exact hrest
    | some written =>
      exact .after (.resolve reg written) fun _ => .after (.unify _ _ _) fun _ => hrest
  | cond span condition onTrue onFalse =>
    rw [Expr.freeReferences, List.append_assoc]
    exact (expr condition).bind fun _ => .after (.unify _ _ _) fun _ => (expr onTrue).bind fun _ =>
      (expr onFalse).andThen fun _ => .after (.unify _ _ _) fun _ => (join _ _).after fun _ =>
        .after (.record _ _ _ _ _) fun _ => .pure _
  | cases span scrutinee branches =>
    rw [Infer.expr]
    refine (expr scrutinee).bind fun value => (arms _ _ branches).andThen fun ⟨first, rows⟩ =>
      .after (.recordCases _) fun _ => ?_
    have hrest (t : Ty) : Stepwise bound [] [] (do
        let effects ← Infer.join (value.effects :: rows) ⟨span, .callEffects⟩
        Infer.record .cases "match" t "" span
        return ({ type := t, effects } : Typed)) :=
      (join _ _).after fun _ => .after (.record _ _ _ _ _) fun _ => .pure _
    dsimp only
    split
    · exact hrest _
    · exact freshType.after fun _ => hrest _
  | ascribe span inner written =>
    exact (expr inner).andThen fun _ => .after (.resolve reg written) fun _ =>
      .after (.unify _ _ _) fun _ => .after (.record _ _ _ _ _) fun _ => .pure _
  | tuple span elems =>
    exact (exprs elems).andThen fun _ => (join _ _).after fun _ =>
      .after (.record _ _ _ _ _) fun _ => .pure _

theorem exprs {bound : List String} (es : List Expr) :
    Stepwise bound [] (Expr.freeReferencesAll bound es) (exprs reg es) := by
  cases es with
  | nil => exact .pure _
  | cons e es => exact (expr e).bind fun _ => (exprs es).andThen fun _ => .pure _

theorem arms {bound : List String} (scrutinee : Ty) (first : Option (Ty × Span))
    (branches : List (Pattern × Expr)) :
    Stepwise bound [] (Expr.freeReferencesArms bound branches)
      (arms reg scrutinee first branches) := by
  cases branches with
  | nil => exact .pure _
  | cons branch rest =>
    obtain ⟨p, body⟩ := branch
    rw [Infer.arms]
    refine .bind (.withScope ((pattern reg p scrutinee).bind fun _ => expr body)) fun typed => ?_
    have hrest (first : Ty × Span) : Stepwise bound [] (Expr.freeReferencesArms bound rest) (do
        let (first, rows) ← Infer.arms reg scrutinee (some first) rest
        return (first, typed.effects :: rows)) :=
      (arms scrutinee _ rest).andThen fun _ => .pure _
    cases first with
    | none => exact hrest _
    | some first => exact (unifyArm _ _ _ _).after fun _ => hrest _

end

/-! ### Definitions -/

theorem function (params : List Pattern) (body : Expr) :
    Stepwise [] [] (body.freeReferences (Pattern.boundNamesAll params))
      (function reg params body) := by
  have hbody : Stepwise (Pattern.boundNamesAll params ++ []) []
      (body.freeReferences (Pattern.boundNamesAll params)) (Infer.expr reg body) := by
    rw [List.append_nil]
    exact expr body
  exact .withScope ((parameters params).bind fun _ => hbody.andThen fun _ => .pure _)

/-- The body of a value has no parameters around it. -/
theorem value {d : Definition} (h : d.params.isEmpty) :
    Stepwise [] [] (d.body.freeReferences (Pattern.boundNamesAll d.params))
      (Infer.expr reg d.body) := by
  rw [List.isEmpty_iff.mp h]
  exact expr d.body

theorem definition (d : Definition) :
    Stepwise [] [] (d.body.freeReferences (Pattern.boundNamesAll d.params)) (definition reg d) := by
  rw [Infer.definition]
  split
  · exact value ‹_›
  · exact (function _ _).andThen fun _ => .pure _

theorem unifyEach (origin : Origin) (ts us : List Ty) :
    Stepwise bound [] [] (unifyEach origin ts us) := by
  induction ts generalizing us with
  | nil =>
    rw [Infer.unifyEach]
    · exact .pure _
    · simp
  | cons t ts ih =>
    cases us with
    | nil =>
      rw [Infer.unifyEach]
      · exact .pure _
      · simp
    | cons u us =>
      rw [Infer.unifyEach]
      exact .after (.unify _ _ _) fun _ => ih us

theorem fitDeclared (d : Definition) (declared : Ty) :
    Stepwise [] [] (d.body.freeReferences (Pattern.boundNamesAll d.params))
      (fitDeclared reg d declared) := by
  simp only [Infer.fitDeclared]
  split
  · exact (value ‹_›).andThen fun _ => .after (.unify _ _ _) fun _ => .unifyRows _ _ _
  · split
    · rename_i params result effects
      have hrest : Stepwise [] [] (d.body.freeReferences (Pattern.boundNamesAll d.params)) (do
          let r ← Infer.function reg d.params d.body
          Infer.unifyEach ⟨d.span, .declaredSignature⟩ params r.1
          Infer.unify result r.2.type ⟨d.span, .declaredSignature⟩
          Infer.subeffect r.2.effects effects ⟨d.span, .declaredSignature⟩) :=
        (function _ _).andThen fun _ => (unifyEach _ _ _).after
          fun _ => .after (.unify _ _ _) fun _ =>
          subeffect _ _ _
      split
      · exact .throw_bind (speaksPlainly_signatureArity _ _ _ _)
      · exact hrest
    · exact .throw (speaksPlainly_signatureArity _ _ _ _)

theorem requireRigid (σ : Scheme) (span : Span) : Stepwise bound [] [] (requireRigid σ span) := by
  refine .read (fun _ _ hs _ _ => by simp only [hs]) fun st => ?_
  dsimp only
  split
  · exact .throw trivial
  · exact .pure _

/-- A check against a signature. -/
theorem checkDeclared (reg : Registry) (d : Definition) (σ : Scheme) (allowed : List Given) :
    Stepwise [] [] (d.body.freeReferences (Pattern.boundNamesAll d.params))
      (checkDeclared reg d σ allowed) := by
  refine (fitDeclared d σ.type).andThen fun _ => (requireRigid σ d.span).after fun _ =>
    .after .takeObligations fun obs => .read (fun _ _ hs _ _ => by simp only [hs]) fun st => ?_
  exact (ofExcept fun _ he => speaksPlainly_solve he).after fun _ =>
    (ofExcept fun _ he => speaksPlainly_requireAllowed he).after fun _ => .pure _

end Stepwise

end Infer

end RowTyping
