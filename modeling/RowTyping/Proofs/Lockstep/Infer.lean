import RowTyping.Proofs.Lockstep.Scope
import RowTyping.Syntax.FreeNames

/-!
# Inference in lockstep

An expression is inferred alike in matching environments: both inferences succeed with matching
results, or both fail with errors about matching types (`Infer.together_expr`). The expression may
not refer to names that only one of the environments knows. The proof follows the recursion of
inference, with one lemma for each form of expression.
-/

namespace RowTyping

open List

/-- Results with matching types and rows. -/
structure Matching.Results (ρ : Matching) (r r' : Typed) : Prop where
  type : ρ.Types r.type r'.type
  effects : ρ.Rows r.effects r'.effects

namespace Infer

open Matching

variable {ρ : Matching} {hidden : List String} {reg : Registry} {Γ Γ' : Env} {body : Expr}
  {params : List Pattern}

/-- The expression is inferred alike in matching environments, unless it refers to hidden names. -/
def Alike (ρ : Matching) (reg : Registry) (hidden : List String) (e : Expr) : Prop :=
  ∀ ⦃bound Γ Γ'⦄, ρ.Envs hidden bound Γ Γ' → (e.freeReferences bound).Disjoint hidden →
    Together ρ Γ Γ' (expr reg e) (expr reg e) ρ.Results

/-- The expressions are inferred alike in matching environments, unless they refer to hidden
names. -/
def AlikeAll (ρ : Matching) (reg : Registry) (hidden : List String) (es : List Expr) : Prop :=
  ∀ ⦃bound Γ Γ'⦄, ρ.Envs hidden bound Γ Γ' → (Expr.freeReferencesAll bound es).Disjoint hidden →
    Together ρ Γ Γ' (exprs reg es) (exprs reg es) (Forall₂ ρ.Results)

/-- The type that all arms have, if there is one already. -/
abbrev Firsts (ρ : Matching) : Option (Ty × Span) → Option (Ty × Span) → Prop :=
  Option.Rel fun first first' => ρ.Types first.1 first'.1 ∧ first.2 = first'.2

/-- The arms are inferred alike in matching environments, unless they refer to hidden names. -/
def AlikeArms (ρ : Matching) (reg : Registry) (hidden : List String)
    (branches : List (Pattern × Expr)) :
    Prop :=
  ∀ ⦃bound Γ Γ'⦄, ρ.Envs hidden bound Γ Γ' →
    (Expr.freeReferencesArms bound branches).Disjoint hidden →
    ∀ {t t' first first'}, ρ.Types t t' → Firsts ρ first first' →
      Together ρ Γ Γ' (arms reg t first branches) (arms reg t' first' branches)
        fun r r' => Firsts ρ r.1 r'.1 ∧ Forall₂ ρ.Rows r.2 r'.2

/-- In a scope of its own with names bound in step, an expression is inferred alike. -/
theorem Alike.scoped {e : Expr} (h : Alike ρ reg hidden e) {bound names : List String}
    (henv : ρ.Envs hidden bound Γ Γ') (he : (e.freeReferences (names ++ bound)).Disjoint hidden) :
    InStep ρ.Errors (ρ.Scoped Γ Γ' names) (expr reg e) (expr reg e) ρ.Results
      (ρ.Scoped Γ Γ' names) :=
  scoped_of_together fun hscope hnames => h (henv.inScope hscope hnames) he

/-! ## Literals, variables and functions -/

theorem alike_lit (span : Span) (value : Literal) : Alike ρ reg hidden (.lit span value) := by
  intro bound Γ Γ' _ _
  rw [expr]
  exact (together_record ..).bind fun _ _ _ => .pure ⟨value.types_type, .closed []⟩

theorem alike_var (span : Span) (name : String) : Alike ρ reg hidden (.var span name) := by
  intro bound Γ Γ' henv hname
  have hfound : name ∈ bound ∨ name ∉ hidden := by
    rw [Expr.freeReferences] at hname
    split at hname
    · exact .inl ‹_›
    · exact .inr fun hmem => hname (.head _) hmem
  rw [expr]
  refine .get_bind fun st st' hst => .at_states (P := ρ.States Γ Γ') ?_ hst
  have hσ := henv.get? hfound
  rw [hst.env, hst.env']
  generalize Γ.get? name = σ at hσ ⊢
  generalize Γ'.get? name = σ' at hσ ⊢
  cases hσ with
  | none => exact .throw (.same _)
  | some hσ =>
    obtain ⟨τ, hτ, heq⟩ := hσ
    simp only [← heq]
    exact (together_instantiate hτ span).bind fun _ _ ht =>
      (together_record ..).bind fun _ _ _ => .pure ⟨ht, .closed []⟩

theorem together_function_of_alike (hbody : Alike ρ reg hidden body) (hreg : ρ.Keeps reg)
    {bound : List String} (henv : ρ.Envs hidden bound Γ Γ')
    (h : (body.freeReferences (Pattern.boundNamesAll params ++ bound)).Disjoint hidden) :
    Together ρ Γ Γ' (function reg params body) (function reg params body)
      fun r r' => Forall₂ ρ.Types r.1 r'.1 ∧ ρ.Results r.2 r'.2 := by
  have hparams : InStep ρ.Errors (ρ.Scoped Γ Γ' []) (parameters reg params) (parameters reg params)
      (Forall₂ ρ.Types) (ρ.Scoped Γ Γ' (Pattern.boundNamesAll params ++ [])) :=
    scoped_parameters hreg params
  rw [append_nil] at hparams
  exact together_withScope (hparams.bind fun _ _ hts => (hbody.scoped henv h).bind
    fun _ _ hr => .pure ⟨hts, hr⟩)

theorem alike_lambda (hbody : Alike ρ reg hidden body) (hreg : ρ.Keeps reg) (span : Span) :
    Alike ρ reg hidden (.lambda span params body) := by
  intro bound Γ Γ' henv h
  rw [Expr.freeReferences] at h
  rw [expr]
  refine (together_function_of_alike hbody hreg henv h).bind ?_
  rintro ⟨ts, r⟩ ⟨ts', r'⟩ ⟨hts, hr⟩
  exact (together_openRow hr.effects).bind fun _ _ heffects =>
    (together_record ..).bind fun _ _ _ => .pure ⟨.fn hts hr.type heffects, .closed []⟩

/-! ## Calls -/

theorem together_arguments {params params' : List Ty}
    (hparams : Forall₂ ρ.Types params params') {args args' : List (Ty × Span)}
    (hargs : Forall₂ (fun arg arg' => ρ.Types arg.1 arg'.1 ∧ arg.2 = arg'.2) args args') (i : Nat) :
    Together ρ Γ Γ' (arguments i params args) (arguments i params' args') fun _ _ => True := by
  induction hparams generalizing args args' i with
  | nil => cases hargs <;> exact .pure trivial
  | cons hparam _ ih =>
    cases hargs with
    | nil => exact .pure trivial
    | @cons arg arg' _ _ harg hargs =>
      obtain ⟨t, span⟩ := arg
      obtain ⟨t', span'⟩ := arg'
      obtain ⟨ht, rfl⟩ := harg
      exact (together_unify hparam ht _).bind fun _ _ _ => ih hargs (i + 1)

/-- What is called has matching parameters, results and effects. -/
theorem together_callee (func : Expr) {t t' : Ty} (ht : ρ.Types t t') (args : List Expr)
    (span : Span) :
    Together ρ Γ Γ' (callee func t args span) (callee func t' args span) fun r r' =>
      Forall₂ ρ.Types r.1 r'.1 ∧ ρ.Types r.2.1 r'.2.1 ∧ ρ.Rows r.2.2 r'.2.2 := by
  have hother {t t' : Ty} (ht : ρ.Types t t') :
      Together ρ Γ Γ'
        (do
          let params ← freshTypes args
          let result ← freshType
          let effects ← freshRow
          unify t (.fn params result effects) ⟨func.span, .calledValue⟩
          return (params, result, effects))
        (do
          let params ← freshTypes args
          let result ← freshType
          let effects ← freshRow
          unify t' (.fn params result effects) ⟨func.span, .calledValue⟩
          return (params, result, effects))
        fun r r' => Forall₂ ρ.Types r.1 r'.1 ∧ ρ.Types r.2.1 r'.2.1 ∧ ρ.Rows r.2.2 r'.2.2 :=
    (together_freshTypes args).bind fun _ _ hparams => together_freshType.bind fun _ _ hresult =>
      together_freshRow.bind fun _ _ heffects =>
        (together_unify ht (.fn hparams.1 hresult heffects) _).bind fun _ _ _ =>
          .pure ⟨hparams.1, hresult, heffects⟩
  refine (together_apply ht).bind fun t t' ht => ?_
  cases ht with
  | fn hparams hresult heffects =>
    dsimp only
    rw [← hparams.length_eq]
    split
    · exact .throw_bind (.same _)
    · exact .pure ⟨hparams, hresult, heffects⟩
  | prim p => exact hother (.prim p)
  | var hv => exact hother (.var hv)
  | named name hargs => exact hother (.named name hargs)
  | app hhead hargs => exact hother (.app hhead hargs)
  | tuple helems => exact hother (.tuple helems)

private theorem types_of_results {rs rs' : List Typed} (h : Forall₂ ρ.Results rs rs') :
    Forall₂ ρ.Types (rs.map (·.type)) (rs'.map (·.type)) := by
  rw [forall₂_map_left_iff, forall₂_map_right_iff]
  exact h.imp fun _ _ hr => hr.type

private theorem effects_of_results {rs rs' : List Typed} (h : Forall₂ ρ.Results rs rs') :
    Forall₂ ρ.Rows (rs.map (·.effects)) (rs'.map (·.effects)) := by
  rw [forall₂_map_left_iff, forall₂_map_right_iff]
  exact h.imp fun _ _ hr => hr.effects

theorem alike_call {func : Expr} {args : List Expr} (hfunc : Alike ρ reg hidden func)
    (hargs : AlikeAll ρ reg hidden args) (span : Span) :
    Alike ρ reg hidden (.call span func args) := by
  intro bound Γ Γ' henv h
  rw [Expr.freeReferences, disjoint_append_left] at h
  rw [expr]
  refine (hfunc henv h.1).bind fun r r' hr => (hargs henv h.2).bind fun rs rs' hrs => ?_
  refine (together_callee func hr.type args span).bind ?_
  rintro ⟨params, result, latent⟩ ⟨params', result', latent'⟩ ⟨hparams, hresult, hlatent⟩
  refine (together_arguments hparams (forall₂_zip (types_of_results hrs) (forall₂_refl _)) 0).bind
    fun _ _ _ => ?_
  have hrows := rel_append (.cons hr.effects (effects_of_results hrs)) (.cons hlatent .nil)
  exact (together_join hrows _).bind fun _ _ heffects =>
    (together_record ..).bind fun _ _ _ => .pure ⟨hresult, heffects⟩

/-! ## Local definitions -/

theorem alike_letIn {p : Pattern} {stated : Option (Spanned TypeExpr)} {value : Expr}
    (hvalue : Alike ρ reg hidden value) (hbody : Alike ρ reg hidden body) (hreg : ρ.Keeps reg)
    (span : Span) :
    Alike ρ reg hidden (.letIn span p stated value body) := by
  intro bound Γ Γ' henv h
  rw [Expr.freeReferences, disjoint_append_left] at h
  -- the definition is bound to matching types, then the body follows in its scope
  have hrest {r r' : Typed} (hr : ρ.Results r r') :
      Together ρ Γ Γ'
        (do
          let rest ← withScope do
            bindLet reg p value r.type
            expr reg body
          let effects ← join [r.effects, rest.effects] ⟨span, .callEffects⟩
          record .letIn "let" rest.type "" span
          return { type := rest.type, effects })
        (do
          let rest ← withScope do
            bindLet reg p value r'.type
            expr reg body
          let effects ← join [r'.effects, rest.effects] ⟨span, .callEffects⟩
          record .letIn "let" rest.type "" span
          return { type := rest.type, effects }) ρ.Results := by
    have hbind : InStep ρ.Errors (ρ.Scoped Γ Γ' []) (bindLet reg p value r.type)
        (bindLet reg p value r'.type) (fun _ _ => True) (ρ.Scoped Γ Γ' (p.boundNames ++ [])) :=
      scoped_bindLet henv hreg p value hr.type
    rw [append_nil] at hbind
    refine (together_withScope (hbind.bind fun _ _ _ => hbody.scoped henv h.2)).bind
      fun rest rest' hrest => ?_
    exact (together_join (.cons hr.effects (.cons hrest.effects .nil)) _).bind
      fun _ _ heffects => (together_record ..).bind fun _ _ _ => .pure ⟨hrest.type, heffects⟩
  rw [expr]
  refine (hvalue henv h.1).bind fun r r' hr => ?_
  cases stated with
  | none => exact hrest hr
  | some written =>
    exact (together_resolve hreg.toIncreasing reg written).bind fun _ _ hdeclared =>
      (together_unify hdeclared hr.type _).bind fun _ _ _ => hrest hr

/-! ## Choices -/

theorem alike_cond {condition onTrue onFalse : Expr} (hcondition : Alike ρ reg hidden condition)
    (honTrue : Alike ρ reg hidden onTrue) (honFalse : Alike ρ reg hidden onFalse) (span : Span) :
    Alike ρ reg hidden (.cond span condition onTrue onFalse) := by
  intro bound Γ Γ' henv h
  simp only [Expr.freeReferences, disjoint_append_left] at h
  rw [expr]
  refine (hcondition henv h.1.1).bind fun cond cond' hcond => ?_
  refine (together_unify (.prim .bool) hcond.type _).bind fun _ _ _ => ?_
  refine (honTrue henv h.1.2).bind fun yes yes' hyes => ?_
  refine (honFalse henv h.2).bind fun no no' hno => ?_
  refine (together_unify hyes.type hno.type _).bind fun _ _ _ => ?_
  have hrows := Forall₂.cons hcond.effects (.cons hyes.effects (.cons hno.effects .nil))
  exact (together_join hrows _).bind fun _ _ heffects =>
    (together_record ..).bind fun _ _ _ => .pure ⟨hyes.type, heffects⟩

/-- The handler sees a failure of the same kind on both sides, and the bindings it started with. -/
theorem together_unifyArm {t t' u u' : Ty} (ht : ρ.Types t t') (hu : ρ.Types u u')
    (firstSpan span : Span) :
    Together ρ Γ Γ' (unifyArm t firstSpan u span) (unifyArm t' firstSpan u' span)
      fun _ _ => True := by
  intro st st' hst
  have hunify := together_unify ht hu ⟨span, .matchArms⟩ hst
  change SameOutcome _ _ _ (EStateM.tryCatch _ _ st) (EStateM.tryCatch _ _ st')
  unfold EStateM.tryCatch
  generalize hrun : unify t u ⟨span, .matchArms⟩ st = r at hunify
  generalize hrun' : unify t' u' ⟨span, .matchArms⟩ st' = r' at hunify
  cases hunify with
  | ok _ hst₁ => exact .ok trivial hst₁
  | @error e e' st₁ st₁' he =>
    have hmismatch : ρ.Errors (.armMismatch (st₁.subst.apply t) (st₁.subst.apply u) firstSpan span)
        (.armMismatch (st₁'.subst.apply t') (st₁'.subst.apply u') firstSpan span) := by
      rw [subst_of_unify_error hrun, subst_of_unify_error hrun']
      exact .armMismatch (hst.apply ht) (hst.apply hu) _ _
    cases he with
    | mismatch => exact .error hmismatch
    | same e =>
      cases e with
      | mismatch => exact .error hmismatch
      | _ => exact .error (.same _)
    | _ => exact .error (by constructor <;> assumption)

theorem alikeArms_nil : AlikeArms ρ reg hidden [] := by
  intro bound Γ Γ' _ _ t t' first first' _ hfirst
  rw [arms, arms]
  exact .pure ⟨hfirst, .nil⟩

theorem alikeArms_cons {p : Pattern} {rest : List (Pattern × Expr)}
    (hbody : Alike ρ reg hidden body) (hrest : AlikeArms ρ reg hidden rest) (hreg : ρ.Keeps reg) :
    AlikeArms ρ reg hidden ((p, body) :: rest) := by
  intro bound Γ Γ' henv h t t' first first' ht hfirst
  rw [Expr.freeReferencesArms, disjoint_append_left] at h
  rw [arms, arms]
  have hpattern : InStep ρ.Errors (ρ.Scoped Γ Γ' []) (pattern reg p t) (pattern reg p t')
      (fun _ _ => True) (ρ.Scoped Γ Γ' (p.boundNames ++ [])) := scoped_pattern hreg p ht
  rw [append_nil] at hpattern
  refine (together_withScope (hpattern.bind fun _ _ _ => hbody.scoped henv h.1)).bind
    fun r r' hr => ?_
  have hfollow {first first' : Ty × Span} (hfirst : ρ.Types first.1 first'.1 ∧ first.2 = first'.2) :
      Together ρ Γ Γ'
        (do
          let typed ← arms reg t (some first) rest
          return (typed.1, r.effects :: typed.2))
        (do
          let typed ← arms reg t' (some first') rest
          return (typed.1, r'.effects :: typed.2))
        fun r r' => Firsts ρ r.1 r'.1 ∧ Forall₂ ρ.Rows r.2 r'.2 :=
    (hrest henv h.2 ht (.some hfirst)).bind fun _ _ h => .pure ⟨h.1, .cons hr.effects h.2⟩
  cases hfirst with
  | none => exact hfollow ⟨hr.type, rfl⟩
  | @some first first' hfirst =>
    obtain ⟨u, span⟩ := first
    obtain ⟨u', span'⟩ := first'
    obtain ⟨hu, rfl⟩ := hfirst
    exact (together_unifyArm hu hr.type _ _).bind fun _ _ _ => hfollow ⟨hu, rfl⟩

theorem alike_cases {scrutinee : Expr} {branches : List (Pattern × Expr)}
    (hscrutinee : Alike ρ reg hidden scrutinee) (hbranches : AlikeArms ρ reg hidden branches)
    (span : Span) : Alike ρ reg hidden (.cases span scrutinee branches) := by
  intro bound Γ Γ' henv h
  rw [Expr.freeReferences, disjoint_append_left] at h
  rw [expr]
  refine (hscrutinee henv h.1).bind fun value value' hvalue => ?_
  refine (hbranches henv h.2 hvalue.type .none).bind ?_
  rintro ⟨first, rows⟩ ⟨first', rows'⟩ ⟨hfirst, hrows⟩
  refine InStep.bind (together_recordCases ?_) fun _ _ _ => ?_
  · exact ⟨hvalue.type, rfl, rfl⟩
  have hfollow {t t' : Ty} (ht : ρ.Types t t') :
      Together ρ Γ Γ'
        (do
          let effects ← join (value.effects :: rows) ⟨span, .callEffects⟩
          record .cases "match" t "" span
          return { type := t, effects })
        (do
          let effects ← join (value'.effects :: rows') ⟨span, .callEffects⟩
          record .cases "match" t' "" span
          return { type := t', effects }) ρ.Results :=
    (together_join (.cons hvalue.effects hrows) _).bind fun _ _ heffects =>
      (together_record ..).bind fun _ _ _ => .pure ⟨ht, heffects⟩
  cases hfirst with
  | none => exact together_freshType.bind fun _ _ ht => hfollow ht
  | some hfirst => exact hfollow hfirst.1

/-! ## Ascriptions and tuples -/

theorem alike_ascribe {inner : Expr} (hinner : Alike ρ reg hidden inner) (hreg : ρ.Keeps reg)
    (span : Span)
    (written : Spanned TypeExpr) : Alike ρ reg hidden (.ascribe span inner written) := by
  intro bound Γ Γ' henv h
  rw [Expr.freeReferences] at h
  rw [expr]
  exact (hinner henv h).bind
    fun _ _ hr => (together_resolve hreg.toIncreasing reg written).bind fun _ _ hdeclared =>
    (together_unify hdeclared hr.type _).bind fun _ _ _ =>
      (together_record ..).bind fun _ _ _ => .pure ⟨hdeclared, hr.effects⟩

theorem alike_tuple {elems : List Expr} (helems : AlikeAll ρ reg hidden elems) (span : Span) :
    Alike ρ reg hidden (.tuple span elems) := by
  intro bound Γ Γ' henv h
  rw [Expr.freeReferences] at h
  rw [expr]
  exact (helems henv h).bind fun _ _ hrs =>
    (together_join (effects_of_results hrs) _).bind fun _ _ heffects =>
      (together_record ..).bind fun _ _ _ => .pure ⟨.tuple (types_of_results hrs), heffects⟩

/-! ## All expressions -/

mutual

/-- Every expression is inferred alike in matching environments. -/
theorem together_expr (hreg : ρ.Keeps reg) (e : Expr) : Alike ρ reg hidden e := by
  cases e with
  | lit span value => exact alike_lit span value
  | var span name => exact alike_var span name
  | lambda span params body => exact alike_lambda (together_expr hreg body) hreg span
  | call span func args =>
    exact alike_call (together_expr hreg func) (together_exprs hreg args) span
  | letIn span p stated value body =>
    exact alike_letIn (together_expr hreg value) (together_expr hreg body) hreg span
  | cond span condition onTrue onFalse =>
    exact alike_cond (together_expr hreg condition) (together_expr hreg onTrue)
      (together_expr hreg onFalse) span
  | cases span scrutinee branches =>
    exact alike_cases (together_expr hreg scrutinee) (together_arms hreg branches) span
  | ascribe span inner written => exact alike_ascribe (together_expr hreg inner) hreg span written
  | tuple span elems => exact alike_tuple (together_exprs hreg elems) span

theorem together_exprs (hreg : ρ.Keeps reg) (es : List Expr) : AlikeAll ρ reg hidden es := by
  cases es with
  | nil =>
    intro bound Γ Γ' _ _
    rw [exprs]
    exact .pure .nil
  | cons e es =>
    intro bound Γ Γ' henv h
    rw [Expr.freeReferencesAll, disjoint_append_left] at h
    rw [exprs]
    exact (together_expr hreg e henv h.1).bind fun _ _ hr =>
      (together_exprs hreg es henv h.2).bind fun _ _ hrs => .pure (.cons hr hrs)

theorem together_arms (hreg : ρ.Keeps reg) (branches : List (Pattern × Expr)) :
    AlikeArms ρ reg hidden branches := by
  match branches with
  | [] => exact alikeArms_nil
  | (p, body) :: rest =>
    exact alikeArms_cons (together_expr hreg body) (together_arms hreg rest) hreg

end

/-- A function is inferred alike in matching environments. -/
theorem together_function (hreg : ρ.Keeps reg) (henv : ρ.Envs hidden [] Γ Γ')
    (h : (body.freeReferences (Pattern.boundNamesAll params)).Disjoint hidden) :
    Together ρ Γ Γ' (function reg params body) (function reg params body)
      fun r r' => Forall₂ ρ.Types r.1 r'.1 ∧ ρ.Results r.2 r'.2 :=
  together_function_of_alike (together_expr hreg body) hreg henv (by rwa [append_nil])

end Infer

end RowTyping
