import Mathlib
import RowTyping.Proofs.Check.Calls
import RowTyping.Proofs.Check.Starts
import RowTyping.Proofs.Coverage.Matrix

/-!
# Checking terminates

Every call that the check of a module comes to is safe (`Call.Safe`): it applies a substitution
without a cycle, solves equations whose variables are unbound, or searches a matrix whose rows fit
its columns. The calls of a module are safe because inference runs from valid state to valid state
(`Module.safe_calls`), and a safe call makes safe calls only (`Call.Safe.makes`). Safe calls return
(`Call.Safe.returns`): bindings without a cycle cannot be followed forever, solving lowers the
number of variables or the size of the equations, and the search uses up heads and columns.
-/

namespace RowTyping

open List

open Infer

/-- The call applies a substitution without a cycle, solves equations in a valid configuration, or
searches a matrix whose rows fit its columns. The check of a module is none of these. -/
def Call.Safe : Call → Prop
  | .apply s _ => s.Acyclic
  | .applyRow s _ => s.Acyclic
  | .solve s eqs u => Unify.Config.Valid ⟨s, eqs, u.fresh⟩
  | .missing types rows columns => types.Consistent ∧
      ∃ reg : Registry, reg.dataTypes = types ∧ Coverage.Fitting reg rows columns
  | .check _ _ => False

/-- All calls of a list are safe. -/
def SafeCalls (cs : List Call) : Prop :=
  ∀ c ∈ cs, c.Safe

section Lists

variable {cs cs' : List Call} {s : Subst} {st : InferState}

theorem safeCalls_nil : SafeCalls [] :=
  nofun

theorem SafeCalls.append (h : SafeCalls cs) (h' : SafeCalls cs') : SafeCalls (cs ++ cs') :=
  forall_mem_append.mpr ⟨h, h'⟩

theorem SafeCalls.cons {c : Call} (hc : c.Safe) (h : SafeCalls cs) : SafeCalls (c :: cs) :=
  forall_mem_cons.mpr ⟨hc, h⟩

theorem safeCalls_singleton {c : Call} (hc : c.Safe) : SafeCalls [c] :=
  forall_mem_singleton.mpr hc

theorem safeCalls_flatMap {α : Type} {as : List α} {f : α → List Call}
    (h : ∀ a ∈ as, SafeCalls (f a)) :
    SafeCalls (as.flatMap f) :=
  forall_mem_flatMap.mpr h

/-- A substitution without a cycle may be applied to anything. -/
theorem safeCalls_apply {α : Type} (hs : s.Acyclic) (as : List α) (f : α → Ty) :
    SafeCalls (as.map fun a => .apply s (f a)) :=
  forall_mem_map.mpr fun _ _ => hs

theorem safeCalls_applyRow {α : Type} (hs : s.Acyclic) (as : List α) (f : α → Row) :
    SafeCalls (as.map fun a => .applyRow s (f a)) :=
  forall_mem_map.mpr fun _ _ => hs

/-- What follows a computation is safe if it is safe whenever the computation succeeds. -/
theorem safeCalls_after {α : Type} {x : InferM α} {k : α → InferState → List Call}
    (h : ∀ a st', x st = .ok a st' → SafeCalls (k a st')) : SafeCalls (after x st k) := by
  intro c hc
  obtain ⟨a, st', hx, hc⟩ := mem_after.mp hc
  exact h a st' hx c hc

end Lists

namespace Infer

variable {reg : Registry} {st st' st₁ : InferState} {origin : Origin} {rows : List Row} {t : Ty}
  {p : Pattern} {body : Expr} {span : Span}

/-! ## Operations -/

theorem safe_recordCalls (hst : st.subst.Acyclic) (t : Ty) : SafeCalls (recordCalls t st) :=
  safeCalls_singleton hst

theorem safe_unifyRowsCalls (hst : st.subst.Acyclic) (a b : Row) :
    SafeCalls (unifyRowsCalls a b st) :=
  .cons hst (safeCalls_singleton hst)

section Valid

variable (hst : st.subst.Valid st.fresh)
include hst

theorem safe_unifyCalls {a b : Ty} (ha : a.Usable st.fresh)
    (hb : b.Usable st.fresh) : SafeCalls (unifyCalls a b st) := by
  have hready : Unify.Ready st.subst (.types a b) st.fresh :=
    ⟨hst.acyclic, hst.sorted, fun r hr => (mem_append.mp hr).elim (ha.sorted r) (hb.sorted r),
      hst.distinct, fun he => ⟨hst.unmentioned he, fun hx =>
        (mem_append.mp hx).elim (fun hx => ha.drawn _ hx he) fun hx => hb.drawn _ hx he⟩⟩
  exact .cons hst.acyclic (.cons hst.acyclic (safeCalls_singleton hready.valid))

/-- What follows two types being made equal is safe if it is after a valid run. -/
theorem safe_unify_then {a b : Ty} {k : Unit → InferState → List Call}
    (ha : a.Usable st.fresh) (hb : b.Usable st.fresh)
    (hk : ∀ st₁, Runs st st₁ (fun P => a.Over P ∧ b.Over P) (fun _ => True) →
      SafeCalls (k () st₁)) :
    SafeCalls (unifyCalls a b st ++ after (unify a b origin) st k) :=
  (safe_unifyCalls hst ha hb).append
    (safeCalls_after fun _ st₁ h => hk st₁ (unify_ok hst ha hb h).1)

theorem safe_unifyEachCalls {ts us : List Ty} (hts : ∀ t ∈ ts, t.Usable st.fresh)
    (hus : ∀ t ∈ us, t.Usable st.fresh) : SafeCalls (unifyEachCalls origin ts us st) := by
  induction ts generalizing st us with
  | nil => exact safeCalls_nil
  | cons t ts ih =>
    rcases us with _ | ⟨u, us⟩
    · exact safeCalls_nil
    rw [forall_mem_cons] at hts hus
    refine safe_unify_then hst hts.1 hus.1 fun st₁ hruns => ?_
    exact ih hruns.valid (fun t ht => (hts.2 t ht).later hruns.later)
      fun t ht => (hus.2 t ht).later hruns.later

theorem safe_argumentsCalls {i : Nat} {params : List Ty} {args : List (Ty × Span)}
    (hparams : ∀ t ∈ params, t.Usable st.fresh) (hargs : ∀ arg ∈ args, arg.1.Usable st.fresh) :
    SafeCalls (argumentsCalls i params args st) := by
  induction params generalizing i st args with
  | nil => exact safeCalls_nil
  | cons param params ih =>
    rcases args with _ | ⟨arg, args⟩
    · exact safeCalls_nil
    rw [forall_mem_cons] at hparams hargs
    refine safe_unify_then hst hparams.1 hargs.1 fun st₁ hruns => ?_
    exact ih hruns.valid (fun t ht => (hparams.2 t ht).later hruns.later)
      fun arg harg => (hargs.2 arg harg).later hruns.later

theorem safe_subeffectCalls {sub sup : Row} (hsub : sub.Usable st.fresh) :
    SafeCalls (subeffectCalls sub sup st) := by
  refine .cons hst.acyclic (safeCalls_after fun r st₁ h => ?_)
  obtain ⟨hdraws, -⟩ := openRow_ok hst.distinct (hst.applyRow_usable hsub) h
  exact safe_unifyRowsCalls (hdraws.valid hst).acyclic sup r

theorem safe_subeffectsCalls {sup : Row} (hrows : ∀ r ∈ rows, r.Usable st.fresh)
    (hsup : sup.Usable st.fresh) : SafeCalls (subeffectsCalls sup origin rows st) := by
  induction rows generalizing st with
  | nil => exact safeCalls_nil
  | cons r rows ih =>
    rw [forall_mem_cons] at hrows
    refine (safe_subeffectCalls hst hrows.1).append (safeCalls_after fun _ st₁ h => ?_)
    obtain ⟨hruns, -⟩ := subeffect_ok hst hrows.1 hsup h
    exact ih hruns.valid (fun r hr => (hrows.2 r hr).later hruns.later) (hsup.later hruns.later)

theorem safe_joinCalls (hrows : ∀ r ∈ rows, r.Usable st.fresh) :
    SafeCalls (joinCalls rows origin st) := by
  refine SafeCalls.append (safeCalls_applyRow hst.acyclic rows id) ?_
  have hkept : ∀ r ∈ (rows.map st.subst.applyRow).filter (!·.isPure), r.Usable st.fresh := by
    intro r hr
    obtain ⟨r₀, hr₀, rfl⟩ := mem_map.mp (mem_of_mem_filter hr)
    exact hst.applyRow_usable (hrows r₀ hr₀)
  generalize (rows.map st.subst.applyRow).filter (!·.isPure) = kept at hkept ⊢
  rcases kept with _ | ⟨r, _ | ⟨r', kept⟩⟩
  · exact safeCalls_nil
  · exact safeCalls_nil
  refine safeCalls_after fun joined st₁ hfresh => ?_
  obtain ⟨hdraws, e, rfl, he⟩ := freshRow_ok hst.distinct hfresh
  have hst₁ := hdraws.valid hst
  have hkept₁ : ∀ r'' ∈ r :: r' :: kept, r''.Usable st₁.fresh := fun r'' hr =>
    (hkept r'' hr).later hdraws.later
  have hjoined : (Row.ofVar e).Usable st₁.fresh := Row.usable_ofVar he.2
  refine (safe_subeffectsCalls hst₁ hkept₁ hjoined).append (safeCalls_after fun _ st₂ h => ?_)
  obtain ⟨hruns, -⟩ := subeffects_ok hst₁ hkept₁ hjoined h
  exact safeCalls_singleton hruns.valid.acyclic

theorem safe_endCalls (hrows : ∀ r ∈ rows, r.Usable st.fresh) :
    SafeCalls (endCalls rows origin t st) := by
  refine (safe_joinCalls hst hrows).append (safeCalls_after fun r st₁ h => ?_)
  obtain ⟨hruns, -⟩ := join_ok hst hrows h
  exact safe_recordCalls hruns.valid.acyclic t

theorem safe_instantiateCalls {σ : Scheme} (hσ : σ.Usable st.fresh) :
    SafeCalls (instantiateCalls σ st) := by
  rw [instantiateCalls]
  split
  · exact safeCalls_nil
  refine safeCalls_after fun s₁ st₁ h₁ => safeCalls_after fun s st₂ h₂ => ?_
  -- the quantified variables are renamed to drawn ones
  obtain ⟨-, hrenames, -⟩ := renew_ok hst.distinct h₁ h₂
  have hs : s.Acyclic := hrenames.acyclic fun x hx => hσ.quantified hx
  exact .cons hs (safeCalls_apply hs _ _)

end Valid

theorem safe_generalizeCalls {s : Subst} (hs : s.Acyclic) (t : Ty) (residual : List Obligation)
    (fixed : FixedVars) (hints : VarNames) :
    SafeCalls (generalizeCalls t residual s fixed hints) := by
  rw [generalizeCalls]
  refine SafeCalls.append (.append (.cons hs (.cons Generalize.acyclic_closing ?_))
    (safeCalls_apply hs _ _)) (safeCalls_applyRow hs _ _)
  exact safeCalls_flatMap fun ob _ => .cons hs (safeCalls_singleton Generalize.acyclic_closing)

/-! ## Patterns -/

mutual

theorem safe_patternCalls (p : Pattern) {st : InferState} {t : Ty} (hst : st.subst.Valid st.fresh)
    (hreg : reg.Usable st.fresh) (ht : t.Usable st.fresh) :
    SafeCalls (patternCalls reg p t st) := by
  cases p with
  | wildcard span => exact safeCalls_nil
  | var span name => exact safeCalls_nil
  | lit span value => exact safe_unifyCalls hst ht value.usable_type
  | constructor span name args =>
    rw [patternCalls]
    rcases hc : reg.dataTypes.constructor? name with _ | ⟨d, c⟩
    · exact safeCalls_nil
    dsimp only
    split
    · exact safeCalls_nil
    refine safeCalls_after fun s st₁ hs => ?_
    obtain ⟨-, hrenames, -⟩ := renewTypes_ok (Q := IsParam d) hst.distinct (.refl _)
      Subst.renames_empty (fun v hv => ⟨v, hv, rfl⟩) hs
    have hacyclic : s.Acyclic := hrenames.acyclic fun x hx => by
      obtain ⟨v, hv, rfl⟩ := hx
      exact hreg.params hc v hv
    obtain ⟨hdraws, hrenewed⟩ := renewed_ok hst.distinct (hreg.params hc) hs
    obtain ⟨hresult, -⟩ := hrenewed d.resultType (resultType_sorted d) (resultType_over d)
    have hst₁ := hdraws.valid hst
    refine SafeCalls.append (.cons hacyclic (safe_unifyCalls hst₁ (ht.later hdraws.later) hresult))
      (safeCalls_after fun _ st₂ hunify => .append (safeCalls_apply hacyclic _ id) ?_)
    obtain ⟨hruns, -⟩ := unify_ok hst₁ (ht.later hdraws.later) hresult hunify
    refine safe_patternsCalls args hruns.valid (hreg.later (hdraws.later.trans hruns.later))
      (forall_mem_map.mpr fun t₀ ht₀ => ?_)
    exact (hrenewed t₀ (hreg.sorted hc t₀ ht₀) (hreg.fields hc t₀ ht₀)).1.later hruns.later
  | tuple span elems =>
    rw [patternCalls]
    refine safeCalls_after fun ts st₁ hfresh => ?_
    obtain ⟨hdraws, -, hts⟩ := freshTypes_ok hst.distinct hfresh
    have hst₁ := hdraws.valid hst
    have hts₁ : ∀ t ∈ ts, t.Usable st₁.fresh := fun t ht => usable_of_handedOut (hts t ht)
    refine safe_unify_then hst₁ (ht.later hdraws.later) (Ty.usable_tuple hts₁) fun st₂ hruns => ?_
    exact safe_patternsCalls elems hruns.valid (hreg.later (hdraws.later.trans hruns.later))
      fun t ht => (hts₁ t ht).later hruns.later

theorem safe_patternsCalls (ps : List Pattern) {st : InferState} {ts : List Ty}
    (hst : st.subst.Valid st.fresh) (hreg : reg.Usable st.fresh)
    (hts : ∀ t ∈ ts, t.Usable st.fresh) :
    SafeCalls (patternsCalls reg ps ts st) := by
  cases ps with
  | nil => exact safeCalls_nil
  | cons p ps =>
    rcases ts with _ | ⟨t, ts⟩
    · exact safeCalls_nil
    rw [forall_mem_cons] at hts
    refine (safe_patternCalls p hst hreg hts.1).append (safeCalls_after fun _ st₁ h => ?_)
    obtain ⟨_, hbinds, -⟩ := pattern_ok p hst hreg hts.1 h
    exact safe_patternsCalls ps hbinds.advances.valid (hreg.later hbinds.advances.later)
      fun t ht => (hts.2 t ht).later hbinds.advances.later

end

theorem safe_parametersCalls {ps : List Pattern} (hst : st.subst.Valid st.fresh)
    (hreg : reg.Usable st.fresh) : SafeCalls (parametersCalls reg ps st) := by
  induction ps generalizing st with
  | nil => exact safeCalls_nil
  | cons p ps ih =>
    refine safeCalls_after fun t st₁ hfresh => ?_
    obtain ⟨hdraws, ht⟩ := freshType_ok hst.distinct hfresh
    have hreg₁ := hreg.later hdraws.later
    refine (safe_patternCalls p (hdraws.valid hst) hreg₁ (usable_of_handedOut ht)).append
      (safeCalls_after fun _ st₂ hp => ?_)
    obtain ⟨_, hbinds, -⟩ := pattern_ok p (hdraws.valid hst) hreg₁ (usable_of_handedOut ht) hp
    exact ih hbinds.advances.valid (hreg₁.later hbinds.advances.later)

/-! ## Parts of expressions -/

theorem safe_bindGeneralizedCalls (hst : st.subst.Acyclic) (t : Ty) :
    SafeCalls (bindGeneralizedCalls t st) := by
  refine SafeCalls.append (.append (.cons hst (safeCalls_apply hst _ _)) (safeCalls_apply hst _ _))
    (safeCalls_after fun split st₁ h => ?_)
  obtain ⟨fixed, inner⟩ := split
  obtain ⟨⟨hsubst, -⟩, -⟩ := splitObligations_ok h
  have hst₁ : st₁.subst.Acyclic := hsubst ▸ hst
  refine (safe_generalizeCalls hst₁ t inner fixed st₁.names).append ?_
  rcases generalize t inner st₁.subst fixed st₁.names with e | σ
  · exact safeCalls_nil
  · exact safe_recordCalls hst₁ _

theorem safe_bindLetCalls {value : Expr} (hst : st.subst.Valid st.fresh)
    (hreg : reg.Usable st.fresh)
    (ht : t.Usable st.fresh) : SafeCalls (bindLetCalls reg p value t st) := by
  cases p with
  | var span name =>
    rw [bindLetCalls]
    split
    · exact safe_bindGeneralizedCalls hst.acyclic t
    · exact safeCalls_singleton hst.acyclic
  | wildcard | lit | constructor | tuple => exact safe_patternCalls _ hst hreg ht

theorem safe_fitStatedCalls {stated : Option (Spanned TypeExpr)} (hst : st.subst.Valid st.fresh)
    (ht : t.Usable st.fresh) : SafeCalls (fitStatedCalls reg stated t st) := by
  rcases stated with _ | written
  · exact safeCalls_nil
  refine safeCalls_after fun declared st₁ h => ?_
  obtain ⟨hdraws, hdeclared, -⟩ := resolve_ok hst.distinct h
  exact safe_unifyCalls (hdraws.valid hst) hdeclared (ht.later hdraws.later)

theorem safe_calleeCalls {args : List Expr} (hst : st.subst.Valid st.fresh)
    (ht : t.Usable st.fresh) :
    SafeCalls (calleeCalls t args st) := by
  refine .cons hst.acyclic ?_
  have happly := hst.apply_usable ht
  generalize st.subst.apply t = t₀ at happly ⊢
  cases t₀ with
  | fn => exact safeCalls_nil
  | prim | var | named | app | tuple =>
    refine safeCalls_after fun params st₁ hparams => safeCalls_after fun result st₂ hresult =>
      safeCalls_after fun latent st₃ hlatent => ?_
    obtain ⟨hdraws, -, hfresh, -⟩ := freshFn_ok hst hparams hresult hlatent
    exact safe_unifyCalls (hdraws.valid hst) (happly.later hdraws.later) hfresh

theorem safe_firstOfCalls {first : Option (Ty × Span)} (hst : st.subst.Valid st.fresh)
    (hfirst : ∀ t ∈ first, t.1.Usable st.fresh) (ht : t.Usable st.fresh) :
    SafeCalls (firstOfCalls first t st) := by
  rcases first with _ | first
  · exact safeCalls_nil
  · exact safe_unifyCalls hst (hfirst first rfl) ht

/-! ## Expressions -/

/-- Inferring the expression makes safe calls. -/
def SafeExpr (reg : Registry) (e : Expr) : Prop :=
  ∀ {st}, st.Valid reg → SafeCalls (exprCalls reg e st)

/-- Inferring the expressions makes safe calls. -/
def SafeExprs (reg : Registry) (es : List Expr) : Prop :=
  ∀ {st}, st.Valid reg → SafeCalls (exprsCalls reg es st)

/-- Inferring the arms makes safe calls. -/
def SafeArms (reg : Registry) (branches : List (Pattern × Expr)) : Prop :=
  ∀ {t₀ first st}, st.Valid reg → t₀.Usable st.fresh → (∀ t ∈ first, t.1.Usable st.fresh) →
    SafeCalls (armsCalls reg t₀ first branches st)

/-- What follows an expression is safe if it is after a run that infers it. -/
theorem SafeExpr.andThen {e : Expr} {k : Typed → InferState → List Call} (he : SafeExpr reg e)
    (hst : st.Valid reg)
    (hk : ∀ r st₁, ExprRun reg st st₁ e r → st₁.Valid reg → SafeCalls (k r st₁)) :
    SafeCalls (exprCalls reg e st ++ after (expr reg e) st k) := by
  refine (he hst).append (safeCalls_after fun r st₁ h => ?_)
  have hrun := sound reg e hst h
  exact hk r st₁ hrun (hrun.runs.validState hst)

theorem Scope.validState {I : Region → Prop} (h : Scope st st₁ I) (hst : st.Valid reg) :
    st₁.Valid reg :=
  ⟨h.advances.valid, h.usable, hst.reg.later h.advances.later⟩

theorem safe_lit (span : Span) (value : Literal) : SafeExpr reg (.lit span value) := by
  intro st hst
  exact safe_recordCalls hst.subst.acyclic _

theorem safe_var (span : Span) (name : String) : SafeExpr reg (.var span name) := by
  intro st hst
  rw [exprCalls]
  rcases hσ : st.env.get? name with _ | σ
  · exact safeCalls_nil
  have husable := hst.env.get? hσ
  refine (safe_instantiateCalls hst.subst husable).append (safeCalls_after fun t st₁ h => ?_)
  obtain ⟨hdraws, -⟩ := instantiate_ok hst.subst husable h
  exact safe_recordCalls (hdraws.valid hst.subst).acyclic t

theorem safe_functionCalls {params : List Pattern} (hbody : SafeExpr reg body)
    (hst : st.Valid reg) :
    SafeCalls (functionCalls reg params body st) := by
  refine (safe_parametersCalls hst.push.subst hst.push.reg).append
    (safeCalls_after fun ts st₁ h => ?_)
  obtain ⟨-, -, bindings, hbinds, -⟩ := parameters_ok hst.push.subst hst.push.reg h
  exact hbody ((hbinds.scope hst.env).validState hst)

theorem safe_lambda {params : List Pattern} (hbody : SafeExpr reg body) :
    SafeExpr reg (.lambda span params body) := by
  intro st hst
  refine (safe_functionCalls hbody hst).append (safeCalls_after fun found st₁ h =>
    safeCalls_after fun latent st₂ hopen => ?_)
  obtain ⟨ts, r⟩ := found
  have hrun := function_ok hst (sound reg body) h
  obtain ⟨hdraws, -⟩ := openRow_ok hrun.runs.valid.distinct hrun.usable.effects hopen
  exact safe_recordCalls (hdraws.valid hrun.runs.valid).acyclic _

theorem safe_call {func : Expr} {args : List Expr} (hfunc : SafeExpr reg func)
    (hargs : SafeExprs reg args) :
    SafeExpr reg (.call span func args) := by
  intro st hst
  refine hfunc.andThen hst fun called st₁ hrun₁ hst₁ => ?_
  refine (hargs hst₁).append (safeCalls_after fun typed st₂ h₂ => ?_)
  have hrun₂ := soundAll reg args hst₁ h₂
  have hcalled := hrun₁.usable.later hrun₂.runs.later
  refine (safe_calleeCalls hrun₂.runs.valid hcalled.type).append
    (safeCalls_after fun found st₃ h₃ => ?_)
  obtain ⟨params, result, latent⟩ := found
  obtain ⟨hruns₃, hfn, hlength, -⟩ := callee_ok hrun₂.runs.valid hcalled.type h₃
  obtain ⟨hparams, hresult, hlatent⟩ := Ty.usable_fn.mp hfn
  have htyped : ∀ r ∈ typed, r.Usable st₃.fresh :=
    fun r hr => (hrun₂.usable r hr).later hruns₃.later
  have hgiven : ∀ t ∈ typed.map (·.type), t.Usable st₃.fresh :=
    forall_mem_map.mpr fun r hr => (htyped r hr).type
  refine (safe_argumentsCalls hruns₃.valid hparams
    fun arg harg => hgiven _ (of_mem_zip harg).1).append (safeCalls_after fun _ st₄ h₄ => ?_)
  have hturn := unifiesInTurn_of_arguments (by simpa [hrun₂.length] using hlength)
    (by simp [hrun₂.length]) h₄
  obtain ⟨hruns₄, -⟩ := hturn.runs hruns₃.valid hparams hgiven
  refine safe_endCalls hruns₄.valid fun r hr => ?_
  have hlater := hruns₃.later.trans hruns₄.later
  simp only [cons_append, mem_cons, mem_append, mem_map, not_mem_nil,
    or_false] at hr
  rcases hr with rfl | ⟨a, ha, rfl⟩ | rfl
  · exact hcalled.effects.later hlater
  · exact (htyped a ha).effects.later hruns₄.later
  · exact hlatent.later hruns₄.later

theorem safeExprs_cons {e : Expr} {es : List Expr} (he : SafeExpr reg e) (hes : SafeExprs reg es) :
    SafeExprs reg (e :: es) := by
  exact fun hst => he.andThen hst fun _ _ _ => hes

theorem safe_tuple {elems : List Expr} (helems : SafeExprs reg elems) :
    SafeExpr reg (.tuple span elems) := by
  intro st hst
  refine (helems hst).append (safeCalls_after fun typed st₁ h => ?_)
  have hrun := soundAll reg elems hst h
  exact safe_endCalls hrun.runs.valid (forall_mem_map.mpr fun r hr => (hrun.usable r hr).effects)

theorem safe_ascribe {inner : Expr} {written : Spanned TypeExpr} (hinner : SafeExpr reg inner) :
    SafeExpr reg (.ascribe span inner written) := by
  intro st hst
  refine hinner.andThen hst fun typed st₁ hrun _ => safeCalls_after fun declared st₂ h₂ => ?_
  obtain ⟨hdraws, hdeclared, -⟩ := resolve_ok hrun.runs.valid.distinct h₂
  have hst₂ := hdraws.valid hrun.runs.valid
  have htyped := hrun.usable.type.later hdraws.later
  exact safe_unify_then hst₂ hdeclared htyped
    fun st₃ hruns => safe_recordCalls hruns.valid.acyclic declared

theorem safe_cond {condition onTrue onFalse : Expr} (hcondition : SafeExpr reg condition)
    (hTrue : SafeExpr reg onTrue) (hFalse : SafeExpr reg onFalse) :
    SafeExpr reg (.cond span condition onTrue onFalse) := by
  intro st hst
  refine hcondition.andThen hst fun cond st₁ hrun₁ hst₁ => ?_
  refine safe_unify_then hst₁.subst (Ty.usable_prim .bool) hrun₁.usable.type fun st₂ hruns₂ => ?_
  refine hTrue.andThen (hruns₂.validState hst₁) fun yes st₃ hrun₃ hst₃ => ?_
  refine hFalse.andThen hst₃ fun no st₄ hrun₄ hst₄ => ?_
  have hyes := hrun₃.usable.later hrun₄.runs.later
  refine safe_unify_then hst₄.subst hyes.type hrun₄.usable.type fun st₅ hruns₅ => ?_
  have hcond := (((hrun₁.usable.later hruns₂.later).later hrun₃.runs.later).later
    hrun₄.runs.later).later hruns₅.later
  refine safe_endCalls hruns₅.valid ?_
  simpa using ⟨hcond.effects, hyes.effects.later hruns₅.later,
    hrun₄.usable.effects.later hruns₅.later⟩

theorem safe_letIn {stated : Option (Spanned TypeExpr)} {value : Expr} (hvalue : SafeExpr reg value)
    (hbody : SafeExpr reg body) : SafeExpr reg (.letIn span p stated value body) := by
  intro st hst
  refine hvalue.andThen hst fun bound st₁ hrun₁ hst₁ => ?_
  refine (safe_fitStatedCalls hrun₁.runs.valid hrun₁.usable.type).append
    (safeCalls_after fun _ st₂ h₂ => ?_)
  obtain ⟨hruns₂, -⟩ := fitStated_ok hrun₁.runs.valid hrun₁.usable.type h₂
  have hst₂ := hruns₂.validState hst₁
  have hbound := hrun₁.usable.later hruns₂.later
  refine SafeCalls.append (.append (safe_bindLetCalls hst₂.push.subst hst₂.push.reg hbound.type)
    (safeCalls_after fun _ st₃ hbind => ?_)) (safeCalls_after fun rest st₅ hscope => ?_)
  · obtain ⟨hopened, -⟩ := bindLet_ok hst₂ hbound.type hbind
    exact hbody (hopened.validState hst₂)
  · obtain ⟨st₄, hact, rfl⟩ := withScope_ok hscope
    simp only [bind_eq_ok] at hact
    obtain ⟨_, st₃, hbind, hexpr⟩ := hact
    obtain ⟨hopened, -⟩ := bindLet_ok hst₂ hbound.type hbind
    have hrun := hopened.run hst₂ (sound reg body) hexpr
    exact safe_endCalls hrun.runs.valid (forall_mem_cons.mpr
      ⟨hbound.effects.later hrun.runs.later, forall_mem_singleton.mpr hrun.usable.effects⟩)

theorem safeArms_cons {rest : List (Pattern × Expr)} (hbody : SafeExpr reg body)
    (hrest : SafeArms reg rest) :
    SafeArms reg ((p, body) :: rest) := by
  intro t₀ first st hst ht₀ hfirst
  refine SafeCalls.append (.append (safe_patternCalls p hst.push.subst hst.push.reg ht₀)
    (safeCalls_after fun _ st₁ hpattern => ?_)) (safeCalls_after fun typed st₃ hscope => ?_)
  · obtain ⟨_, hbinds, -⟩ := pattern_ok p hst.push.subst hst.push.reg ht₀ hpattern
    exact hbody ((hbinds.scope hst.env).validState hst)
  · obtain ⟨st₂, hact, rfl⟩ := withScope_ok hscope
    simp only [bind_eq_ok] at hact
    obtain ⟨_, st₁, hpattern, hexpr⟩ := hact
    obtain ⟨_, hbinds, -⟩ := pattern_ok p hst.push.subst hst.push.reg ht₀ hpattern
    have hrun := (hbinds.scope hst.env).run hst (sound reg body) hexpr
    have hfirst₂ : ∀ t ∈ first, t.1.Usable (closeScope st₂).fresh := fun t ht =>
      (hfirst t ht).later hrun.runs.later
    refine (safe_firstOfCalls hrun.runs.valid hfirst₂ hrun.usable.type).append
      (safeCalls_after fun first₁ st₃ h => ?_)
    obtain ⟨hruns, husable, -⟩ := firstOf_ok hrun.runs.valid hfirst₂ hrun.usable.type h
    refine hrest (hruns.validState (hrun.runs.validState hst))
      ((ht₀.later hrun.runs.later).later hruns.later) fun t ht => ?_
    obtain rfl := Option.some.inj ht
    exact husable

theorem safe_cases {scrutinee : Expr} {branches : List (Pattern × Expr)}
    (hscrutinee : SafeExpr reg scrutinee)
    (hbranches : SafeArms reg branches) : SafeExpr reg (.cases span scrutinee branches) := by
  intro st hst
  refine hscrutinee.andThen hst fun value st₁ hrun₁ hst₁ => ?_
  refine (hbranches hst₁ hrun₁.usable.type (by simp)).append (safeCalls_after fun found st₂ h₂ =>
    safeCalls_after fun _ st₃ hcases => safeCalls_after fun t st₄ ht => ?_)
  obtain ⟨first, rows⟩ := found
  have hrun₂ := soundArms reg branches value.type none hst₁ hrun₁.usable.type (by simp) h₂
  have hdraws₃ := recordCases_ok hcases
  obtain ⟨hdraws₄, -⟩ := armsType_ok (hdraws₃.valid hrun₂.runs.valid)
    (fun t ht => (hrun₂.usable.1 t ht).later hdraws₃.later) ht
  have hlater := hdraws₃.later.trans hdraws₄.later
  exact safe_endCalls (hdraws₄.valid (hdraws₃.valid hrun₂.runs.valid)) (forall_mem_cons.mpr
    ⟨(hrun₁.usable.effects.later hrun₂.runs.later).later hlater,
      fun r hr => (hrun₂.usable.2 r hr).later hlater⟩)

mutual

theorem safeExpr (reg : Registry) : ∀ e, SafeExpr reg e
  | .lit span value => safe_lit span value
  | .var span name => safe_var span name
  | .lambda _ _ body => safe_lambda (safeExpr reg body)
  | .call _ func args => safe_call (safeExpr reg func) (safeExprs reg args)
  | .letIn _ _ _ value body => safe_letIn (safeExpr reg value) (safeExpr reg body)
  | .cond _ condition onTrue onFalse =>
    safe_cond (safeExpr reg condition) (safeExpr reg onTrue) (safeExpr reg onFalse)
  | .cases _ scrutinee branches => safe_cases (safeExpr reg scrutinee) (safeArms reg branches)
  | .ascribe _ inner _ => safe_ascribe (safeExpr reg inner)
  | .tuple _ elems => safe_tuple (safeExprs reg elems)

theorem safeExprs (reg : Registry) : ∀ es, SafeExprs reg es
  | [] => fun _ => safeCalls_nil
  | e :: es => safeExprs_cons (safeExpr reg e) (safeExprs reg es)

theorem safeArms (reg : Registry) : ∀ branches, SafeArms reg branches
  | [] => fun _ _ _ => safeCalls_nil
  | (_, body) :: rest => safeArms_cons (safeExpr reg body) (safeArms reg rest)

end

/-! ## Definitions -/

theorem safe_definitionCalls (hst : st.Valid reg) (d : Definition) :
    SafeCalls (definitionCalls reg d st) := by
  rw [definitionCalls]
  split
  · exact safeExpr reg d.body hst
  · exact safe_functionCalls (safeExpr reg d.body) hst

theorem safe_fitDeclaredCalls {d : Definition} (hst : st.Valid reg) (ht : t.Usable st.fresh) :
    SafeCalls (fitDeclaredCalls reg d t st) := by
  unfold fitDeclaredCalls
  dsimp only
  split
  · refine SafeExpr.andThen (safeExpr reg d.body) hst fun typed st₁ hrun hst₁ => ?_
    exact safe_unify_then hst₁.subst (ht.later hrun.runs.later) hrun.usable.type fun st₂ hruns =>
      safe_unifyRowsCalls hruns.valid.acyclic _ _
  · cases t with
    | fn params result latent =>
      dsimp only
      split
      · exact safeCalls_nil
      rename_i hlength
      rw [not_not] at hlength
      refine (safe_functionCalls (safeExpr reg d.body) hst).append
        (safeCalls_after fun found st₁ h₁ => ?_)
      obtain ⟨ts, typed⟩ := found
      have hrun := function_ok hst (sound reg d.body) h₁
      obtain ⟨hparams, hresult, hlatent⟩ := Ty.usable_fn.mp (ht.later hrun.runs.later)
      refine (safe_unifyEachCalls hrun.runs.valid hparams hrun.usableParams).append
        (safeCalls_after fun _ st₂ h₂ => ?_)
      obtain ⟨hruns₂, -⟩ := (unifiesInTurn_of_unifyEach (hlength.trans hrun.length_eq.symm) h₂).runs
        hrun.runs.valid hparams hrun.usableParams
      have htyped := hrun.usable.later hruns₂.later
      exact safe_unify_then hruns₂.valid (hresult.later hruns₂.later) htyped.type fun st₃ hruns₃ =>
        safe_subeffectCalls hruns₃.valid (htyped.effects.later hruns₃.later)
    | prim | var | named | app | tuple => exact safeCalls_nil

theorem safe_checkDeclaredCalls {d : Definition} {σ : Scheme} {allowed : List Given}
    (hst : st.Valid reg)
    (hσ : σ.type.Usable st.fresh) : SafeCalls (checkDeclaredCalls reg d σ allowed st) := by
  refine (safe_fitDeclaredCalls hst hσ).append (safeCalls_after fun _ st₁ h => ?_)
  have hst₁ := (fitDeclared_ok hst hσ h).1.valid.acyclic
  refine SafeCalls.append (.append (.cons hst₁ (safeCalls_apply hst₁ _ _))
    (safeCalls_applyRow hst₁ _ _)) (safeCalls_after fun _ st₂ hrigid => ?_)
  obtain ⟨-, rfl⟩ := requireRigid_ok hrigid
  exact (safeCalls_apply hst₁ _ _).append (safeCalls_apply hst₁ _ _)

end Infer

/-! ## Coverage -/

/-- The choices that an inference leaves may be searched for missing patterns under its
substitution. -/
theorem PendingCases.safe_calls {reg : Registry} {st : InferState} (hreg : reg.dataTypes.Consistent)
    (hst : st.Settled reg reg.dataTypes.NoParam) {cases : PendingCases}
    (h : cases.Settled reg reg.dataTypes.NoParam st.subst) :
    SafeCalls (cases.calls reg st.subst) := by
  have hacyclic := hst.valid.subst.acyclic
  refine .cons hacyclic (safeCalls_singleton ⟨hreg, reg, rfl, forall_mem_map.mpr fun p hp => ?_,
    forall_mem_singleton.mpr (hacyclic.apply_over hst.inside.closed h.scrutinee)⟩)
  obtain ⟨bindings, hfits⟩ := h.fits st.subst.valuation hacyclic.absorbs p hp
  exact ⟨_, .cons hfits .nil⟩

namespace Checker

variable {c : Checker} {f : Fresh}

/-- A constructor that a data type owns is found by its name. -/
theorem Valid.consistent (h : c.Valid f) : c.registry.dataTypes.Consistent where
  name hd := h.linked.name hd
  constructor {n d con} hd hcon := by
    have hfind : d.constructors.find? (·.name = con.name) = some con := by
      have hdistinct := h.linked.distinct hd
      rw [find?_eq_some_iff_append]
      obtain ⟨before, after, heq⟩ := append_of_mem hcon
      refine ⟨by simp, before, after, heq, fun con' hcon' => ?_⟩
      -- no constructor before it has its name
      rw [heq, map_append, map_cons, nodup_append] at hdistinct
      have hne := hdistinct.2.2 _ (mem_map_of_mem hcon') _ (.head _)
      simpa using hne
    simp only [DataTypes.constructor?, h.linked.owner hd hcon, Option.bind_eq_bind,
      Option.bind_some]
    rw [show c.registry.dataTypes.types.get? n = some d from hd]
    simp only [Option.bind_some, hfind, Option.pure_def]
  fields hd hcon := (h.dataTypes hd).fields _ hcon

/-- No parameter of a data type is known to an inference that starts. -/
theorem Valid.settled (h : c.Valid f) (hf : f.Distinct) :
    (InferState.start f c.env).Settled c.registry c.registry.dataTypes.NoParam where
  valid := (h.wellFormed hf).toValid
  inside := ⟨h.noParam, fun _ _ _ hxy => (Subst.not_leadsTo_empty hxy).elim⟩
  env := by
    intro σ hσ
    change σ ∈ c.env.locals at hσ
    rw [Env.locals, h.scopes] at hσ
    cases hσ
  pending := nofun

end Checker

/-! ## Components -/

namespace Component

variable {reg : Registry} {P : Region} {st st' : InferState} {members : List (Definition × Ty)}

theorem inferMember_inv {d : Definition} {t : Ty} {m : Member}
    (h : (inferBody reg d t *> takeMember d t) st = .ok m st') :
    ∃ u st₁, inferBody reg d t st = .ok u st₁ ∧ m = ⟨d, t, st₁.obligations, st₁.pending⟩ ∧
      st' = { st₁ with obligations := [], pending := [] } := by
  rcases hbody : inferBody reg d t st with ⟨u, st₁⟩ | ⟨e, st₁⟩
  · rw [inferMember_ok hbody, EStateM.Result.ok.injEq] at h
    exact ⟨u, st₁, rfl, h.1.symm, h.2.symm⟩
  · simp only [SeqRight.seqRight, EStateM.seqRight, hbody, reduceCtorEq] at h

/-- The types that members start with are drawn. -/
theorem settled_bindMembers {ds : List Definition} (hst : st.Settled reg P)
    (h : bindMembers ds st = .ok members st') :
    st'.Settled reg P ∧ ∀ m ∈ members, m.2.Usable st'.fresh ∧ m.2.Over P := by
  obtain ⟨hvalid, hsubst, husable⟩ := bindMembers_ok hst.valid h
  simp only [bindMembers, bind_eq_ok, modify_eq_ok, pure_eq_ok] at h
  obtain ⟨types, st₁, htypes, _, _, rfl, rfl, rfl⟩ := h
  obtain ⟨hdraws, -, hfresh⟩ := freshTypes_ok hst.valid.subst.distinct htypes
  have hover : ∀ m ∈ ds.zip types, m.2.Over P := fun m hm =>
    over_of_handedOut hst.inside (hfresh m.2 (of_mem_zip hm).2)
  refine ⟨⟨hvalid, ⟨fun hx => hst.inside.upcoming (hdraws.later.upcoming hx),
    hsubst ▸ hst.inside.closed⟩,
    ?_, ?_⟩, fun m hm => ⟨husable m hm, hover m hm⟩⟩
  · change Env.Over ((ds.zip types).foldl _ st₁.env.push) P
    rw [foldl_bind_mono, hdraws.env]
    exact hst.env.push.bindAll (forall_mem_map.mpr hover)
  · change ∀ cases ∈ st₁.pending, cases.Settled reg P st₁.subst
    rw [(Prod.mk.inj hdraws.unsettled).2, hdraws.subst]
    exact hst.pending

/-- The choices in all bodies fit their patterns under the substitution at the end. -/
theorem settled_inferBodies {k : Nat} {ms : List Member} (hst : st.Settled reg P)
    (hts : ∀ m ∈ members, m.2.Usable st.fresh ∧ m.2.Over P)
    (h : inferBodies reg k members st = .ok ms st') :
    st'.Settled reg P ∧ ∀ m ∈ ms, ∀ cases ∈ m.pending, cases.Settled reg P st'.subst := by
  induction members generalizing k st ms with
  | nil =>
    obtain ⟨rfl, rfl⟩ := pure_eq_ok.mp h
    exact ⟨hst, nofun⟩
  | cons m members ih =>
    obtain ⟨d, t⟩ := m
    rw [forall_mem_cons] at hts
    obtain ⟨st₁, rest, hbody, hrest, rfl⟩ := inferBodies_cons_ok h
    have hruns := inferBody_ok hst.valid hts.1.1 hbody
    have hst₁ := hruns.settled hst ⟨hst.env, hts.1.2⟩
    have hcleared : InferState.Settled reg P { st₁ with obligations := [], pending := [] } :=
      ⟨hst₁.valid.clear, hst₁.inside.congr rfl rfl, hst₁.env, nofun⟩
    have husable : ∀ m ∈ members, m.2.Usable st₁.fresh :=
      fun m hm => (hts.2 m hm).1.later hruns.later
    obtain ⟨hst', hpending⟩ := ih hcleared (fun m hm => ⟨husable m hm, (hts.2 m hm).2⟩) hrest
    -- what the first body left still fits after the others
    have hbodies := inferBodies_ok hcleared.valid husable hrest
    refine ⟨hst', forall_mem_cons.mpr ⟨fun cases hcases => ?_, hpending⟩⟩
    exact (hst₁.pending cases hcases).mono fun U hU =>
      hbodies.keeps.absorbs hst₁.valid.subst.acyclic hst'.valid.subst.acyclic hU

theorem safe_inferBodyCalls {d : Definition} {t : Ty} (hst : st.Valid reg)
    (ht : t.Usable st.fresh) :
    SafeCalls (inferBodyCalls reg d t st) := by
  refine (safe_definitionCalls hst d).append (safeCalls_after fun r st₁ h => ?_)
  obtain ⟨hruns₁, hr⟩ := definition_ok hst h
  have ht₁ := ht.later hruns₁.later
  split
  · refine (safe_unifyRowsCalls hruns₁.valid.acyclic _ _).append
      (safeCalls_after fun _ st₂ h₂ => ?_)
    obtain ⟨hruns₂, -⟩ := unifyRows_ok hruns₁.valid Row.usable_pure hr.effects h₂
    exact safe_unifyCalls hruns₂.valid (ht₁.later hruns₂.later) (hr.type.later hruns₂.later)
  · exact safe_unifyCalls hruns₁.valid ht₁ hr.type

theorem safe_inferBodiesCalls (hst : st.Valid reg) (hts : ∀ m ∈ members, m.2.Usable st.fresh) :
    SafeCalls (inferBodiesCalls reg members st) := by
  induction members generalizing st with
  | nil => exact safeCalls_nil
  | cons m members ih =>
    obtain ⟨d, t⟩ := m
    rw [forall_mem_cons] at hts
    refine (safe_inferBodyCalls hst hts.1).append (safeCalls_after fun m st₂ h => ?_)
    obtain ⟨u, st₁, hbody, -, rfl⟩ := inferMember_inv h
    have hruns := inferBody_ok hst hts.1 hbody
    exact ih (hruns.validState hst).clear fun m hm => (hts.2 m hm).later hruns.later

theorem safe_generalizeAllCalls {residual : List (List Obligation)} {k : Nat} {ms : List Member}
    (hst : st.subst.Acyclic) : SafeCalls (generalizeAllCalls st residual k ms) := by
  induction ms generalizing k with
  | nil => exact safeCalls_nil
  | cons m ms ih => exact SafeCalls.append (.cons hst (safe_generalizeCalls hst _ _ _ _)) ih

theorem safe_calls {c : Checker} {pool : Pool} (hpool : pool.Spaced) (hc : c.Valid pool.ready)
    (ds : List Definition) : SafeCalls (calls c.registry c.env pool ds) := by
  have hstart := hc.settled (Fresh.pooled_ready hpool).distinct
  refine safeCalls_after fun members st h => ?_
  obtain ⟨hst, hts⟩ := settled_bindMembers hstart h
  refine (safe_inferBodiesCalls hst.valid fun m hm => (hts m hm).1).append ?_
  rcases hbodies : inferBodies c.registry 0 members st with ⟨ms, st'⟩ | ⟨b, st'⟩
  · obtain ⟨hst', hpending⟩ := settled_inferBodies hst hts hbodies
    have hacyclic := hst'.valid.subst.acyclic
    refine SafeCalls.append (safeCalls_flatMap fun m _ => safeCalls_apply hacyclic _ _) ?_
    rcases solveAll c.registry st'.subst ms with b | solved
    · exact safeCalls_nil
    · exact (safe_generalizeAllCalls hacyclic).append (safeCalls_flatMap fun m hm =>
        safeCalls_flatMap fun cases hcases => cases.safe_calls hc.consistent hst'
          (hpending m hm cases hcases))
  · exact safeCalls_nil

end Component

theorem DeclaredTask.safe_calls {c : Checker} {pool : Pool} (hpool : pool.Spaced)
    (hc : c.Valid pool.ready) {task : DeclaredTask}
    (htask : task.scheme.Declared c.registry.dataTypes pool.ready) :
    SafeCalls (task.calls c.registry c.env pool) := by
  have hstart := hc.settled (Fresh.pooled_ready hpool).distinct
  refine (safe_checkDeclaredCalls hstart.valid htask.usable.type).append
    (safeCalls_after fun _ st' h => ?_)
  obtain ⟨st, _, hfit, rfl, -⟩ := checkDeclared_inv h
  have hst := (fitDeclared_ok hstart.valid htask.usable.type hfit).1.settled hstart
    ⟨hstart.env, htask.apart⟩
  refine safeCalls_flatMap fun cases hcases => ?_
  have hsafe := cases.safe_calls hc.consistent hst (hst.pending cases hcases)
  exact hsafe

/-! ## Modules -/

namespace Checker

variable {c : Checker}

theorem safe_implCalls (c : Checker) (block : ImplDecl) : SafeCalls (c.implCalls block) := by
  rw [implCalls]
  split
  · rename_i t head arity ht hhead
    have hfixed : (Subst.empty.bindType t.param head).Acyclic :=
      Subst.acyclic_fixed (DataTypes.takes_of_implHead? hhead).1.occurrences
    exact safeCalls_flatMap fun m _ => .cons hfixed (safeCalls_apply hfixed _ _)
  · exact safeCalls_nil

theorem safe_implsCalls (c : Checker) (blocks : List ImplDecl) :
    SafeCalls (c.implsCalls blocks) := by
  induction blocks generalizing c with
  | nil => exact safeCalls_nil
  | cons block blocks ih => exact (c.safe_implCalls block).append (ih _)

end Checker

theorem Module.safe_calls (m : Module) (trace : Bool) : SafeCalls (m.calls trace) := by
  obtain ⟨hpoised, hvalid⟩ :=
    ((Checker.ready_declareModule m).poised.setTracing trace).inferComponents
  refine .append (.append (Checker.safe_implsCalls _ _) ?_) ?_
  · exact safeCalls_flatMap fun r hr =>
      Component.safe_calls (hvalid r hr).spaced (hvalid r hr).valid r.subject
  · refine safeCalls_flatMap fun r hr => ?_
    obtain ⟨hrun, -, htask⟩ := hpoised.taskRuns r hr
    exact DeclaredTask.safe_calls hrun.spaced hrun.valid (hrun.valid.declared r.subject htask)

/-! ## Calls of safe calls -/

namespace Call

variable {c c' : Call} {s : Subst}

theorem Safe.follow (hs : s.Acyclic) {x : Var} (h : s.follow? x = some c) : c.Safe := by
  rcases x with v | e
  · obtain ⟨t, -, rfl⟩ := Option.map_eq_some_iff.mp h
    exact hs
  · obtain ⟨r, -, rfl⟩ := Option.map_eq_some_iff.mp h
    exact hs

/-- A safe call makes safe calls. -/
theorem Safe.makes (h : c.Safe) (hc : c.Makes c') : c'.Safe := by
  have hrows {s s' : Subst} {a b : Row} {rest : List Equation} {u u' : Unifier}
      (hvalid : Unify.Config.Valid ⟨s, .rows a b :: rest, u.fresh⟩)
      (hok : Unify.solveRows s a b u = .ok s' u') :
      Unify.Config.Valid ⟨s', Equation.resolveAllRows s' rest, u'.fresh⟩ := by
    rcases Unify.solveRows_outcome s a b u with ⟨s₁, u₁, hok₁, hstep⟩ | ⟨-, err, u₁, herr⟩
    · rw [hok] at hok₁
      cases hok₁
      exact (Unify.Step.reaches (.rows hstep) hvalid).valid
    · rw [hok] at herr
      cases herr
  cases hc with
  | follow _ hfollow => exact .follow h hfollow
  | followTail _ hfollow => exact .follow h hfollow
  | resolve hok _ _ => exact (hrows h hok).acyclic
  | rows hok => exact hrows h hok
  | identical =>
    rw [Safe, Unifier.fresh_note]
    exact (Unify.Step.reaches .identical h).valid
  | bind _ hbinding hv =>
    rw [Safe, Unifier.fresh_note]
    exact (Unify.Step.reaches (.bind (Unify.binding?_eq_some hbinding) hv) h).valid
  | decompose _ _ hparts =>
    rw [Safe, Unifier.fresh_note]
    exact (Unify.Step.reaches (.decompose (Equation.decomposes_of_eq_some hparts)) h).valid
  | fields hd _ _ =>
    obtain ⟨-, reg, rfl, hfitting⟩ := h
    exact hfitting.acyclic_argumentSubst hd
  | split hcomplete hcase =>
    obtain ⟨hconsistent, reg, rfl, hfitting⟩ := h
    exact ⟨hconsistent, reg, rfl,
      hfitting.specialize hconsistent hcase (Coverage.mem_heads_of_isComplete hcomplete hcase)⟩
  | drop _ =>
    obtain ⟨hconsistent, reg, rfl, hfitting⟩ := h
    exact ⟨hconsistent, reg, rfl, hfitting.defaults⟩
  | step _ => exact h.elim

/-! ## Safe calls return -/

theorem returns_of_makes (h : c.Safe) (hmakes : ∀ c', c.Makes c' → c'.Safe → c'.Returns) :
    c.Returns :=
  ⟨_, fun c' hc' => hmakes c' hc' (h.makes hc')⟩

/-- Bindings without a cycle cannot be followed forever. -/
theorem returns_follow (hs : s.Acyclic) (x : Var) : ∀ c, s.follow? x = some c → c.Returns := by
  induction x using hs.induction with
  | step x ih =>
    intro c hc
    rcases x with v | e
    · obtain ⟨t, ht, rfl⟩ := Option.map_eq_some_iff.mp hc
      refine ⟨_, fun c' hc' => ?_⟩
      cases hc' with
      | follow hx hfollow => exact ih _ (Subst.leadsTo_of_types ht hx) c' hfollow
    · obtain ⟨r, hr, rfl⟩ := Option.map_eq_some_iff.mp hc
      refine ⟨_, fun c' hc' => ?_⟩
      cases hc' with
      | followTail htail hfollow => exact ih _ (Subst.leadsTo_of_effects hr htail) c' hfollow

theorem returns_apply (hs : s.Acyclic) (t : Ty) : (Call.apply s t).Returns := by
  refine ⟨_, fun c' hc' => ?_⟩
  cases hc' with
  | follow _ hfollow => exact returns_follow hs _ c' hfollow

theorem returns_applyRow (hs : s.Acyclic) (r : Row) : (Call.applyRow s r).Returns := by
  refine ⟨_, fun c' hc' => ?_⟩
  cases hc' with
  | followTail _ hfollow => exact returns_follow hs _ c' hfollow

/-- Solving ends: the recursion lowers the number of variables or the size of the equations. -/
theorem returns_solve (s : Subst) (eqs : List Equation) (u : Unifier)
    (h : (Call.solve s eqs u).Safe) :
    (Call.solve s eqs u).Returns := by
  induction s, eqs using Unify.solve.induct generalizing u with
  | case1 s => exact ⟨_, fun c' hc' => by cases hc'⟩
  | case2 s a b rest ih =>
    refine returns_of_makes h fun c' hc' hsafe => ?_
    cases hc' with
    | resolve => exact returns_applyRow hsafe _
    | rows => exact ih _ _ hsafe
  | case3 s a rest ih =>
    refine returns_of_makes h fun c' hc' hsafe => ?_
    cases hc' with
    | identical => exact ih _ hsafe
    | bind hne => exact (hne rfl).elim
    | decompose hne => exact (hne rfl).elim
  | case4 s a b rest hne v t hb hv =>
    refine ⟨_, fun c' hc' => ?_⟩
    cases hc' with
    | identical => exact (hne rfl).elim
    | bind _ hb' hv' =>
      obtain ⟨rfl, rfl⟩ := Prod.mk.inj (Option.some.inj (hb.symm.trans hb'))
      exact (hv' hv).elim
    | decompose _ hb' => cases hb.symm.trans hb'
  | case5 s a b rest hne v t hb hv ih =>
    refine returns_of_makes h fun c' hc' hsafe => ?_
    cases hc' with
    | identical => exact (hne rfl).elim
    | bind _ hb' =>
      obtain ⟨rfl, rfl⟩ := Prod.mk.inj (Option.some.inj (hb.symm.trans hb'))
      exact ih _ hsafe
    | decompose _ hb' => cases hb.symm.trans hb'
  | case6 s a b rest hne hb shape parts hd ih =>
    refine returns_of_makes h fun c' hc' hsafe => ?_
    cases hc' with
    | identical => exact (hne rfl).elim
    | bind _ hb' => cases hb.symm.trans hb'
    | decompose _ _ hd' =>
      obtain ⟨rfl, rfl⟩ := Prod.mk.inj (Option.some.inj (hd.symm.trans hd'))
      exact ih _ hsafe
  | case7 s a b rest hne hb hd =>
    refine ⟨_, fun c' hc' => ?_⟩
    cases hc' with
    | identical => exact (hne rfl).elim
    | bind _ hb' => cases hb.symm.trans hb'
    | decompose _ _ hd' => cases hd.symm.trans hd'

/-- The search for missing patterns ends: it uses up heads and columns. -/
theorem returns_missing (types : DataTypes) (rows : List Coverage.PatternRow) (columns : List Ty)
    (h : (Call.missing types rows columns).Safe) : (Call.missing types rows columns).Returns := by
  induction rows, columns using Coverage.missing.induct types with
  | case1 rows hrows => exact ⟨_, fun c' hc' => by cases hc'⟩
  | case2 rows hrows => exact ⟨_, fun c' hc' => by cases hc'⟩
  | case3 rows t rest hcomplete ih =>
    refine returns_of_makes h fun c' hc' hsafe => ?_
    cases hc' with
    | fields => exact returns_apply hsafe _
    | split _ hcase => exact ih _ hcase hsafe
    | drop hincomplete => cases hcomplete.symm.trans hincomplete
  | case4 rows t rest hincomplete ih =>
    refine returns_of_makes h fun c' hc' hsafe => ?_
    cases hc' with
    | fields => exact returns_apply hsafe _
    | split hcomplete => exact (hincomplete hcomplete).elim
    | drop => exact ih hsafe

theorem Safe.returns (h : c.Safe) : c.Returns := by
  cases c with
  | apply s t => exact returns_apply h t
  | applyRow s r => exact returns_applyRow h r
  | solve s eqs u => exact returns_solve s eqs u h
  | missing types rows columns => exact returns_missing types rows columns h
  | check m trace => exact h.elim

/-- Whatever the check of a module comes to is safe. -/
theorem safe_of_reaches {m : Module} {trace : Bool} (h : (Call.check m trace).Reaches c) :
    c = .check m trace ∨ c.Safe := by
  induction h with
  | refl => exact .inl rfl
  | tail _ hmakes ih =>
    refine .inr ?_
    rcases ih with rfl | hsafe
    · cases hmakes with
      | step hc => exact m.safe_calls trace _ hc
    · exact hsafe.makes hmakes

end Call

/-! ## Modules that are checked -/

/-- A module in which `f` looks at an optional number and a truth value at once. -/
private def choiceModule : Module where
  declarations := [
    Declaration.definition {
        name := "f"
        params := [.var .synthetic "x"]
        body := .cases .synthetic (.var .synthetic "x") [
          (.tuple .synthetic [.constructor .synthetic "Some" [.var .synthetic "n"],
            .lit .synthetic (.bool true)], .var .synthetic "n"),
          (.tuple .synthetic [.constructor .synthetic "None" [], .wildcard .synthetic],
            .lit .synthetic (.int 0))] }]

/-- Whether a call searches a matrix with two rows. -/
private def Call.isSearch : Call → Bool
  | .missing _ rows _ => rows.length = 2
  | _ => false

set_option maxRecDepth 100000 in
private theorem searches_choiceModule : (choiceModule.calls false).any (·.isSearch) = true := by cbv

private theorem exists_search : ∃ types rows columns, rows.length = 2 ∧
    (Call.check choiceModule false).Reaches (.missing types rows columns) := by
  obtain ⟨c, hc, hsearch⟩ := any_eq_true.mp searches_choiceModule
  cases c with
  | missing types rows columns =>
    exact ⟨types, rows, columns, of_decide_eq_true hsearch, .single (.step hc)⟩
  | apply | applyRow | solve | check => cases hsearch

/-- Checking a module terminates. Every call that it comes to returns, and the substitution of the
call has no cycle, so that what it is applied to mentions no bound variable any more. -/
theorem Module.check_terminates (m : Module) (trace : Bool) (c : Call)
    (h : (Call.check m trace).Reaches c) :
    c.Returns ∧ (∀ s ∈ c.subst?, s.Acyclic) ∧
      (∀ s t, c = .apply s t → ∀ x ∈ (s.apply t).occurrences, ¬ s.Binds x) ∧
      ∀ s r, c = .applyRow s r → ∀ e ∈ (s.applyRow r).tail, ¬ s.Binds (.effect e) := by
  rcases Call.safe_of_reaches h with rfl | hsafe
  · refine ⟨⟨_, fun c' hc' => ?_⟩, by simp [Call.subst?], by simp, by simp⟩
    cases hc' with
    | step hc => exact (m.safe_calls trace _ hc).returns
  · refine ⟨hsafe.returns, fun s hs => ?_, ?_, ?_⟩
    · cases c with
      | apply | applyRow => exact Option.some.inj hs ▸ hsafe
      | solve => exact Option.some.inj hs ▸ hsafe.acyclic
      | missing | check => cases hs
    · -- a variable of the result is the end of a path of bindings
      rintro s t rfl x hx
      obtain ⟨y, -, hxy⟩ := Subst.mem_occurrences_apply.mp hx
      exact (Subst.Acyclic.mem_image hsafe hxy).2
    · rintro s r rfl e he
      rw [Subst.applyRow_eq_under, Row.tail_under] at he
      obtain ⟨e₀, -, he⟩ := Option.bind_eq_some_iff.mp he
      have himage : Var.effect e ∈ s.valuation.image (.effect e₀) := by simp [Valuation.image, he]
      exact (Subst.Acyclic.mem_image hsafe himage).2

theorem Module.check_terminates_choice :
    (Call.check choiceModule false).Returns ∧ ∃ types rows columns, rows.length = 2 ∧
      (Call.check choiceModule false).Reaches (.missing types rows columns) ∧
      (Call.missing types rows columns).Returns := by
  obtain ⟨types, rows, columns, hrows, h⟩ := exists_search
  exact ⟨(Module.check_terminates choiceModule false _ .refl).1, types, rows, columns, hrows, h,
    (Module.check_terminates choiceModule false _ h).1⟩

/-- Every matrix that is searched for missing patterns is rectangular: each row has one pattern for
each column, a pattern has as many subpatterns as the constructor it stands for has fields, and
whatever is found missing has one entry for each column. -/
theorem Module.matrices_rectangular (m : Module) (trace : Bool) (types : DataTypes)
    (rows : List Coverage.PatternRow) (columns : List Ty)
    (h : (Call.check m trace).Reaches (.missing types rows columns)) :
    Coverage.Rectangular types rows columns ∧
      ∀ ws ∈ Coverage.missing types rows columns, ws.length = columns.length := by
  rcases Call.safe_of_reaches h with h | ⟨hconsistent, reg, rfl, hfitting⟩
  · cases h
  · exact ⟨hfitting.rectangular hconsistent,
      fun ws hws => Coverage.length_of_mem_missing rows columns hws⟩

theorem Module.matrices_rectangular_choice : ∃ types rows columns, rows.length = 2 ∧
    (Call.check choiceModule false).Reaches (.missing types rows columns) ∧
      Coverage.Rectangular types rows columns ∧
      ∀ ws ∈ Coverage.missing types rows columns, ws.length = columns.length := by
  obtain ⟨types, rows, columns, hrows, h⟩ := exists_search
  exact ⟨types, rows, columns, hrows, h,
    Module.matrices_rectangular choiceModule false types rows columns h⟩

end RowTyping
