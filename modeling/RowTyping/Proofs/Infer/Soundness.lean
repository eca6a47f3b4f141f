import RowTyping.Proofs.Infer.Walks

/-!
# Inference is sound

What inference finds for an expression can be derived with the typing rules, in the context of the
environment and for every valuation that absorbs the substitution at the end (`Infer.ExprRun`). The
valuation is arbitrary because a local definition is used at all instances of its scheme: each
instance is the type of the same run under another valuation. On its way inference keeps what has to
be settled at its end (`Infer.Walks`). The proof follows the recursion of inference, with one lemma
for each form of expression.
-/

namespace RowTyping

open List

/-- The type and the row mention only variables that have been drawn already. -/
structure Typed.Usable (r : Typed) (f : Fresh) : Prop where
  type : r.type.Usable f
  effects : r.effects.Usable f

/-- The variables of the type and the row are in the region. -/
def Typed.Over (r : Typed) (P : Region) : Prop :=
  r.type.Over P ∧ r.effects.Over P

theorem Typed.Usable.later {r : Typed} {f f' : Fresh} (h : r.Usable f) (hlater : f.Later f') :
    r.Usable f' :=
  ⟨h.type.later hlater, h.effects.later hlater⟩

namespace Infer

/-! ## What a run establishes -/

/-- A successful inference of an expression. -/
structure ExprRun (reg : Registry) (st st' : InferState) (e : Expr) (r : Typed) : Prop where
  runs : Walks reg (visits reg e st) st st' st.env.Over r.Over
  usable : r.Usable st'.fresh
  derives : ∀ I, st.Apart I → ∀ U : Valuation, U.Absorbs st'.subst →
    HasType reg (st.env.under U) e (r.type.under U) (r.effects.under U)

/-- A successful inference of expressions from left to right. -/
structure ExprsRun (reg : Registry) (st st' : InferState) (es : List Expr) (rs : List Typed) :
    Prop where
  runs : Walks reg (visitsAll reg es st) st st' st.env.Over fun P => ∀ r ∈ rs, r.Over P
  usable : ∀ r ∈ rs, r.Usable st'.fresh
  length : rs.length = es.length
  derives : ∀ I, st.Apart I → ∀ U : Valuation, U.Absorbs st'.subst →
    ∀ ε, (∀ r ∈ rs, r.effects.under U ≤ ε) →
      HaveTypes reg (st.env.under U) es (rs.map (·.type.under U)) ε

/-- A successful inference of the arms of a choice on a value of type `t₀`. -/
structure ArmsRun (reg : Registry) (st st' : InferState) (t₀ : Ty) (first : Option (Ty × Span))
    (arms : List (Pattern × Expr)) (first' : Option (Ty × Span)) (rows : List Row) : Prop where
  runs : Walks reg (visitsArms reg t₀ first arms st) st st'
    (fun P => st.env.Over P ∧ t₀.Over P ∧ ∀ t ∈ first, t.1.Over P)
    fun P => (∀ t ∈ first', t.1.Over P) ∧ ∀ r ∈ rows, r.Over P
  usable : (∀ t ∈ first', t.1.Usable st'.fresh) ∧ ∀ r ∈ rows, r.Usable st'.fresh
  first_eq : ∀ t ∈ first, first' = some t
  fits : ∀ U : Valuation, U.Absorbs st'.subst → ∀ branch ∈ arms,
    ∃ bindings, branch.1.Fits reg (t₀.under U) bindings
  derives : st.Apart (fun P => t₀.Over P ∧ ∀ t ∈ first, t.1.Over P) →
    ∀ U : Valuation, U.Absorbs st'.subst →
    ∀ t ε, (∀ t' ∈ first', t'.1.under U = t) → (∀ r ∈ rows, r.under U ≤ ε) →
      ArmsHaveType reg (st.env.under U) (t₀.under U) arms t ε

/-- Whenever inference of an expression succeeds, its result can be derived. -/
def Sound (reg : Registry) (e : Expr) : Prop :=
  ∀ {st r st'}, st.Valid reg → expr reg e st = .ok r st' → ExprRun reg st st' e r

/-- Whenever inference of expressions succeeds, the results can be derived. -/
def SoundAll (reg : Registry) (es : List Expr) : Prop :=
  ∀ {st rs st'}, st.Valid reg → exprs reg es st = .ok rs st' → ExprsRun reg st st' es rs

/-- Whenever inference of arms succeeds, the results can be derived. -/
def SoundArms (reg : Registry) (t₀ : Ty) (first : Option (Ty × Span))
    (branches : List (Pattern × Expr)) : Prop :=
  ∀ {st st' first' rows}, st.Valid reg → t₀.Usable st.fresh →
    (∀ t ∈ first, t.1.Usable st.fresh) →
    arms reg t₀ first branches st = .ok (first', rows) st' →
      ArmsRun reg st st' t₀ first branches first' rows

variable {reg : Registry} {st st' st₁ st₂ : InferState} {I : Region → Prop} {body : Expr}
  {r : Typed} {t : Ty}
  {ts params : List Ty} {span : Span} {u : Unit} {args : List Expr} {latent : Row}
    {first : Option (Ty × Span)}
  {p : Pattern}

/-! ## Literals and variables -/

theorem sound_lit (span : Span) (value : Literal) : Sound reg (.lit span value) := by
  intro st r st' hst h
  have hok := h
  simp only [expr, bind_eq_ok, pure_eq_ok] at h
  obtain ⟨_, st₁, hrecord, rfl, rfl⟩ := h
  have hruns := (record_ok hrecord).runs hst.subst (I := st.env.Over)
    (O := Typed.Over ⟨value.type, .pure⟩) fun P _ _ => ⟨value.over_type, Row.over_pure⟩
  refine ⟨hruns.walks.visit rfl hok,
    ⟨value.usable_type, Row.usable_pure⟩, fun I _ U _ => ?_⟩
  rw [Literal.under_type]
  exact .lit

theorem sound_var (span : Span) (name : String) : Sound reg (.var span name) := by
  intro st r st' hst h
  have hok := h
  simp only [expr, bind_eq_ok, get_eq_ok] at h
  obtain ⟨_, _, ⟨rfl, rfl⟩, h⟩ := h
  rcases hσ : st.env.get? name with _ | σ
  · simp only [hσ, throw_eq_ok] at h
  simp only [hσ, bind_eq_ok, pure_eq_ok] at h
  obtain ⟨t, st₁, hinst, _, st₂, hrecord, rfl, rfl⟩ := h
  obtain ⟨hraises, husable, hover, huses⟩ := instantiate_ok hst.subst (hst.env.get? hσ) hinst
  have hrecorded := record_ok hrecord
  have hwhole := hraises.between (.refl st) hrecorded
  refine ⟨(hwhole.walks hst.subst
    fun P hP henv => ⟨hover P hP fun x hx => ?_, Row.over_pure⟩).visit rfl hok,
    ⟨husable.later hrecorded.later, Row.usable_pure⟩, fun I _ U _ => ?_⟩
  · exact .var (by simp [Env.under, hσ]) (huses U)
  · exact hst.env.free_over henv hσ hx

/-! ## Scopes -/

theorem withScope_ok {α : Type} {act : InferM α} {a : α} (h : withScope act st = .ok a st') :
    ∃ st₁, act (opened st) = .ok a st₁ ∧ st' = closeScope st₁ := by
  rw [opened]
  rcases hact : act { st with env := st.env.push } with ⟨b, st₁⟩ | ⟨e, st₁⟩
  · simp only [withScope, hact, EStateM.Result.ok.injEq] at h
    obtain ⟨rfl, rfl⟩ := h
    exact ⟨st₁, rfl, rfl⟩
  · simp only [withScope, hact, reduceCtorEq] at h

/-- The second state comes from the first one by opening a scope and binding names there to schemes
over the regions of which `I` holds. -/
structure Scope (st st₁ : InferState) (I : Region → Prop) : Prop where
  advances : Advances (opened st) st₁ (fun P => st.env.Over P ∧ I P) st₁.env.Over
  usable : st₁.env.Usable st₁.fresh
  closes : st₁.env.pop = st.env
  apart : st.Apart I → st₁.Apart fun _ => True
  pending : st₁.pending = st.pending
  retains : ∀ {V G}, V.Absorbs st.subst → (∀ σ ∈ st₁.env.locals, ∀ g ∈ σ.givens, G g) →
    Retains V G st st₁

/-- A successful inference of an expression in a scope of its own. -/
structure ScopedRun (reg : Registry) (st st₁ st₂ : InferState) (I : Region → Prop) (e : Expr)
    (r : Typed) : Prop where
  runs : Walks reg (visits reg e st₁) st (closeScope st₂) (fun P => st.env.Over P ∧ I P) r.Over
  usable : r.Usable st₂.fresh
  later : st₁.fresh.Later st₂.fresh
  absorbs : ∀ {U : Valuation}, U.Absorbs st₂.subst → U.Absorbs st₁.subst
  derives : st.Apart I → ∀ U : Valuation, U.Absorbs st₂.subst →
    HasType reg (st₁.env.under U) e (r.type.under U) (r.effects.under U)

theorem Scope.run (hscope : Scope st st₁ I) (hst : st.Valid reg) (hbody : Sound reg body)
    (h : expr reg body st₁ = .ok r st₂) : ScopedRun reg st st₁ st₂ I body r := by
  have hadvances := hscope.advances
  have hrun := hbody ⟨hadvances.valid, hscope.usable, hst.reg.later hadvances.later⟩ h
  have hwhole := hadvances.trans hrun.runs.toAdvances fun P _ hO => hO
  -- opening and closing a scope changes neither bindings nor supply
  have hopened {P : Region} (hP : st.Inside P) : (opened st).Inside P := ⟨hP.1, hP.2⟩
  refine ⟨⟨⟨⟨hwhole.valid, hwhole.later, hwhole.keeps, fun P hP => hwhole.binds P (hopened hP),
    fun P hP hI => ?_⟩, ?_⟩, fun P hP hI cases hcases => ?_, fun V G hV hG => ?_⟩, hrun.usable,
    hrun.runs.later, hrun.runs.absorbs hadvances.valid,
      fun hapart => hrun.derives _ (hscope.apart hapart)⟩
  · obtain ⟨hP₂, -, hr⟩ := hwhole.inside P (hopened hP) hI
    exact ⟨⟨hP₂.1, hP₂.2⟩, hr⟩
  · change st₂.env.pop = st.env
    rw [hrun.runs.env, hscope.closes]
  · obtain ⟨hP₁, hover⟩ := hadvances.inside P (hopened hP) hI
    exact hscope.pending ▸ hrun.runs.choices P hP₁ hover cases hcases
  · have hopens : Retains V G st st₁ := hscope.retains (hwhole.absorbs hst.push.subst hV)
      (hG _ (mem_visits_self reg body st₁))
    have hbody := (Conserves.nil hopens).append (hrun.runs.conserves hV hG)
    exact ⟨hbody.retains, hbody.visits⟩

/-- Names of one type each, bound in a scope of their own. -/
theorem BindsNames.scope {bindings : List (String × Ty)} (henv : st.env.Usable st.fresh)
    (h : BindsNames (opened st) st₁ I bindings) : Scope st st₁ I := by
  refine ⟨h.advances.imp (fun P hP => hP.2) fun P _ hP hO => ?_, ?_, ?_, fun hapart σ hσ => ?_,
    (Prod.mk.inj h.unsettled).2, fun _ _ => retains_of_unsettled h.unsettled⟩
  · rw [h.env]
    exact hP.1.push.bindAll hO
  · rw [h.env]
    exact (henv.later h.advances.later).push.bindAll h.usable
  · rw [h.env, opened, Env.pop_push_bindAll]
  · rw [h.env] at hσ ⊢
    rcases Env.mem_locals_bindAll hσ with ⟨b, -, rfl⟩ | hσ
    · -- a single type quantifies nothing, so every region will do
      exact ⟨fun _ => True, ⟨fun _ => trivial, fun _ _ _ _ => trivial⟩, fun _ _ _ _ => trivial,
        trivial, fun x hx => (not_mem_nil hx).elim⟩
    · obtain ⟨P, hP, hover, hI, hq⟩ := hapart.push σ hσ
      obtain ⟨hP₁, hbindings⟩ := h.advances.inside P hP hI
      exact ⟨P, hP₁, hover.bindAll hbindings, trivial, hq⟩

theorem BindsNames.under_env {bindings : List (String × Ty)}
    (h : BindsNames (opened st) st₁ I bindings) (U : Valuation) :
    st₁.env.under U = (st.env.under U).bindAll (U.bindings bindings) := by
  rw [h.env, Env.under_bindAll, opened, Env.under_push]

/-- A generalised type, bound to a name in a scope of its own. -/
theorem scope_of_generalizes {σ : Scheme} {name : String} {fixed : FixedVars}
    {tails : List EffectVar}
    (hst : st.Valid reg) (ht : t.Usable st.fresh) (hσ : σ.Generalizes t st.subst fixed tails)
    (hfixed : ∀ y, (st.env.push.freeVars st.subst).Has y → fixed.Has y)
    (hsubst : st₁.subst = st.subst)
    (hfresh : st₁.fresh = st.fresh) (henv : st₁.env = st.env.push.bind name σ)
    (hpending : st₁.pending = st.pending)
    (hretains : ∀ {V G}, V.Absorbs st.subst → (∀ σ ∈ st₁.env.locals, ∀ g ∈ σ.givens, G g) →
      Retains V G st st₁) :
    Scope st st₁ t.Over := by
  have hs := hst.subst.acyclic
  refine ⟨⟨?_, ?_, ?_, fun P _ _ x hx => .inl (hsubst ▸ hx),
    fun P hP hI => ⟨hP.congr hsubst hfresh, ?_⟩⟩, ?_, ?_, fun hapart => ?_, hpending, hretains⟩
  · rw [hsubst, hfresh]
    exact hst.subst
  · rw [hfresh]
    exact .refl _
  · rw [hsubst]
    exact .refl _
  · rw [henv]
    exact hI.1.push.bind fun x hx => hσ.type_over hs hP.closed hI.2 x hx.1
  · rw [henv, hfresh]
    exact hst.env.push.bind (hσ.usable hst.subst ht)
  · rw [henv]
    rfl
  · exact apart_of_generalizes hst.push ht hapart.push hσ hfixed hsubst hfresh henv

/-! ## Functions -/

/-- A successful inference of a function with parameters of types `ts`. -/
structure FunctionRun (reg : Registry) (st st' : InferState) (params : List Pattern) (body : Expr)
    (ts : List Ty) (r : Typed) : Prop where
  runs : Walks reg (after (parameters reg params) (opened st) fun _ st => visits reg body st) st st'
    st.env.Over fun P => (∀ t ∈ ts, t.Over P) ∧ r.Over P
  usableParams : ∀ t ∈ ts, t.Usable st'.fresh
  usable : r.Usable st'.fresh
  derives : ∀ U : Valuation, U.Absorbs st'.subst → ∃ bindings,
    Pattern.FitsAll reg params (ts.map (·.under U)) bindings ∧
    ∀ I, st.Apart I →
      HasType reg ((st.env.under U).bindAll bindings) body (r.type.under U) (r.effects.under U)

theorem function_ok {params : List Pattern} (hst : st.Valid reg) (hbody : Sound reg body)
    (h : function reg params body st = .ok (ts, r) st') :
    FunctionRun reg st st' params body ts r := by
  obtain ⟨_, hact, rfl⟩ := withScope_ok h
  simp only [bind_eq_ok, pure_eq_ok, Prod.mk.injEq] at hact
  obtain ⟨ts, st₁, hparams, r, st₂, hexpr, ⟨rfl, rfl⟩, rfl⟩ := hact
  obtain ⟨hts, htsOver, bindings, hbinds, hfits⟩ :=
    parameters_ok hst.push.subst hst.push.reg hparams
  have hrun := (hbinds.scope hst.env).run hst hbody hexpr
  refine ⟨?_,
    fun t ht => (hts t ht).later hrun.later, hrun.usable, fun U hU =>
    ⟨U.bindings bindings, hfits U (hrun.absorbs hU), fun I hapart => ?_⟩⟩
  · rw [after_of_ok hparams]
    exact hrun.runs.imp (fun P henv => ⟨henv, trivial⟩)
      fun P hP _ hr => ⟨htsOver P ⟨hP.1, hP.2⟩, hr⟩
  · rw [← hbinds.under_env]
    exact hrun.derives (hapart.imp fun _ _ => trivial) U hU

theorem sound_lambda {params : List Pattern} (hbody : Sound reg body) :
    Sound reg (.lambda span params body) := by
  intro st r st' hst h
  have hok := h
  simp only [expr, bind_eq_ok, pure_eq_ok] at h
  obtain ⟨⟨ts, r⟩, st₁, hfunction, latent, st₂, hopen, _, st₃, hrecord, rfl, rfl⟩ := h
  have hrun := function_ok hst hbody hfunction
  -- the latent row is the row of the body, opened
  obtain ⟨hdraws₂, hlatent, hlatentOver, hle⟩ :=
    openRow_ok hrun.runs.valid.distinct hrun.usable.effects hopen
  have hrecorded := record_ok hrecord
  have hdraws := hdraws₂.trans hrecorded
  have hwhole := hrun.runs.andThen
    (hdraws.runs hrun.runs.valid (I := Typed.Over r) (O := latent.Over)
      fun P hP hr => hlatentOver P hP hr.2) fun P _ hO => hO.2
  refine ⟨(hwhole.imp (fun _ h => h) fun P _ _ hO =>
      ⟨Ty.over_fn.mpr ⟨hO.1.1, hO.1.2.1, hO.2⟩, Row.over_pure⟩).visit rfl hok,
    ⟨?_, Row.usable_pure⟩, fun I hapart U hU => ?_⟩
  · exact Ty.usable_fn.mpr ⟨fun t ht => (hrun.usableParams t ht).later hdraws.later,
      hrun.usable.type.later hdraws.later, hlatent.later hrecorded.later⟩
  · obtain ⟨bindings, hfits, hbody⟩ := hrun.derives U (hdraws.subst ▸ hU)
    rw [Ty.under_fn]
    exact .lambda hfits (hbody I hapart) (hle U)

/-! ## Calls -/

/-- Types are made equal in turn, from one state to another. -/
inductive UnifiesInTurn : InferState → List Ty → List Ty → InferState → Prop
  | nil {st : InferState} : UnifiesInTurn st [] [] st
  | cons {st st₁ st' : InferState} {t t' : Ty} {ts ts' : List Ty} {origin : Origin} {u : Unit} :
      unify t t' origin st = .ok u st₁ → UnifiesInTurn st₁ ts ts' st' →
      UnifiesInTurn st (t :: ts) (t' :: ts') st'

theorem UnifiesInTurn.runs {ts' : List Ty} (h : UnifiesInTurn st ts ts' st')
    (hst : st.subst.Valid st.fresh)
    (hts : ∀ t ∈ ts, t.Usable st.fresh) (hts' : ∀ t ∈ ts', t.Usable st.fresh) :
    Runs st st' (fun P => (∀ t ∈ ts, t.Over P) ∧ ∀ t ∈ ts', t.Over P) (fun _ => True) ∧
      ∀ U : Valuation, U.Absorbs st'.subst → ts.map (·.under U) = ts'.map (·.under U) := by
  induction h with
  | nil => exact ⟨.refl hst fun _ _ => trivial, fun U _ => rfl⟩
  | @cons st st₁ st' t t' ts ts' origin u hunify _ ih =>
    rw [forall_mem_cons] at hts hts'
    obtain ⟨hruns₁, heq₁⟩ := unify_ok hst hts.1 hts'.1 hunify
    obtain ⟨hruns, heq⟩ := ih hruns₁.valid (fun t ht => (hts.2 t ht).later hruns₁.later)
      fun t ht => (hts'.2 t ht).later hruns₁.later
    simp only [forall_mem_cons]
    have hfirst : Runs st st₁ (fun P => (t.Over P ∧ ∀ t ∈ ts, t.Over P) ∧
        t'.Over P ∧ ∀ t ∈ ts', t.Over P) fun _ => True :=
      hruns₁.imp (fun P hI => ⟨hI.1.1, hI.2.1⟩) fun _ _ _ h => h
    have hwhole := hfirst.trans hruns fun P hI _ => ⟨hI.1.2, hI.2.2⟩
    refine ⟨hwhole.imp (fun _ h => h) fun _ _ _ _ => trivial, fun U hU => ?_⟩
    rw [map_cons, map_cons, heq U hU, heq₁ U (hruns.absorbs hruns₁.valid hU)]

theorem unifiesInTurn_of_arguments {i : Nat} {spans : List Span}
    (hlength : params.length = ts.length)
    (hspans : spans.length = ts.length) (h : arguments i params (ts.zip spans) st = .ok u st') :
    UnifiesInTurn st params ts st' := by
  induction params generalizing i ts spans st with
  | nil =>
    obtain rfl := length_eq_zero_iff.mp hlength.symm
    obtain ⟨-, rfl⟩ := pure_eq_ok.mp h
    exact .nil
  | cons param params ih =>
    rcases ts with _ | ⟨t, ts⟩
    · cases hlength
    rcases spans with _ | ⟨span, spans⟩
    · cases hspans
    simp only [zip_cons_cons, arguments, bind_eq_ok] at h
    obtain ⟨_, st₁, hunify, h⟩ := h
    exact .cons hunify (ih (by simpa using hlength) (by simpa using hspans) h)

/-- A function type of drawn variables. -/
theorem freshFn_ok {result : Ty} (hst : st.subst.Valid st.fresh)
    (hparams : freshTypes args st = .ok params st₁)
    (hresult : freshType st₁ = .ok result st₂) (hlatent : freshRow st₂ = .ok latent st') :
    Draws st st' ∧ params.length = args.length ∧ (Ty.fn params result latent).Usable st'.fresh ∧
      ∀ P, st.Inside P → (Ty.fn params result latent).Over P := by
  obtain ⟨hdraws₁, hlength, hps⟩ := freshTypes_ok hst.distinct hparams
  obtain ⟨hdraws₂, v, rfl, hv⟩ := freshType_ok (hdraws₁.valid hst).distinct hresult
  obtain ⟨hdraws₃, e, rfl, he⟩ := freshRow_ok ((hdraws₁.trans hdraws₂).valid hst).distinct hlatent
  refine ⟨hdraws₁.trans (hdraws₂.trans hdraws₃), hlength, Ty.usable_fn.mpr ⟨fun t ht => ?_,
    Ty.usable_var (hv.later hdraws₃.later).2, Row.usable_ofVar he.2⟩, fun P hP => ?_⟩
  · exact (usable_of_handedOut (hps t ht)).later (hdraws₂.later.trans hdraws₃.later)
  · exact Ty.over_fn.mpr ⟨fun t ht => over_of_handedOut hP (hps t ht),
      Ty.over_var.mpr (hP.upcoming (hdraws₁.later.upcoming hv.1)),
      Row.over_ofVar.mpr (hP.upcoming ((hdraws₁.trans hdraws₂).later.upcoming he.1))⟩

/-- What is called stands for a function of as many parameters as there are arguments. -/
theorem callee_ok {func : Expr} {result : Ty} (hst : st.subst.Valid st.fresh)
    (ht : t.Usable st.fresh) (h : callee func t args span st = .ok (params, result, latent) st') :
    Runs st st' t.Over (Ty.fn params result latent).Over ∧
      (Ty.fn params result latent).Usable st'.fresh ∧ params.length = args.length ∧
      ∀ U : Valuation, U.Absorbs st'.subst → t.under U = (Ty.fn params result latent).under U := by
  simp only [callee, apply, bind_eq_ok, get_eq_ok, pure_eq_ok] at h
  -- the type is looked at under the substitution
  obtain ⟨_, _, ⟨_, _, ⟨rfl, rfl⟩, rfl, rfl⟩, h⟩ := h
  have happly := hst.apply_usable ht
  have happlyOver {P : Region} (hP : st.Inside P) (hover : t.Over P) :=
    hst.acyclic.apply_over hP.closed hover
  generalize hfn : st.subst.apply t = t₀ at h happly happlyOver
  cases t₀ with
  | fn ps r row =>
    by_cases hlength : ps.length = args.length
    · simp only [hlength, ne_eq, not_true_eq_false, if_false, pure_eq_ok, Prod.mk.injEq] at h
      obtain ⟨⟨rfl, rfl, rfl⟩, rfl⟩ := h
      refine ⟨(Draws.refl st).runs hst fun P hP hover => happlyOver hP hover, happly, hlength,
        fun U hU => ?_⟩
      rw [← hfn, Subst.under_apply hU]
    · simp only [ne_eq, hlength, not_false_eq_true, if_true, bind_eq_ok, throw_eq_ok, false_and,
        exists_false] at h
  | prim _ | var _ | named _ _ | app _ _ | tuple _ =>
    -- anything else has to be unified with a function type
    simp only [bind_eq_ok, pure_eq_ok, Prod.mk.injEq] at h
    obtain ⟨ps, st₁, hps, r, st₂, hr, row, st₃, hrow, _, st₄, hunify, ⟨rfl, rfl, rfl⟩, rfl⟩ := h
    obtain ⟨hdraws, hlength, hfresh, hfreshOver⟩ := freshFn_ok hst hps hr hrow
    obtain ⟨hruns, heq⟩ := unify_ok (hdraws.valid hst) (happly.later hdraws.later) hfresh hunify
    have hdrawn := hdraws.runs hst (I := t.Over) fun P hP hover =>
      And.intro (happlyOver hP hover) (hfreshOver P hP)
    have hwhole := hdrawn.trans hruns fun P _ hO => hO
    refine ⟨hwhole.imp (fun _ h => h) fun P _ _ hO => hO.1.2, hfresh.later hruns.later, hlength,
      fun U hU => ?_⟩
    rw [← heq U hU, ← hfn, Subst.under_apply (hwhole.absorbs hst hU)]

/-- The rows that the row of a call has to contain. -/
private theorem mem_callRows {called r : Row} {typed : List Typed} :
    r ∈ called :: typed.map (·.effects) ++ [latent] ↔
      r = called ∨ (∃ a ∈ typed, a.effects = r) ∨ r = latent := by
  simp only [cons_append, mem_cons, mem_append, mem_map, not_mem_nil,
    or_false]

theorem sound_call {func : Expr} (hfunc : Sound reg func) (hargs : SoundAll reg args) :
    Sound reg (.call span func args) := by
  intro st r st' hst h
  have hok := h
  simp only [expr, bind_eq_ok, pure_eq_ok] at h
  obtain ⟨called, st₁, h₁, typed, st₂, h₂, ⟨params, result, latent⟩, st₃, h₃, _, st₄, h₄, effects,
    st₅, h₅, _, st₆, hrecord, rfl, rfl⟩ := h
  have hrun₁ := hfunc hst h₁
  have hrun₂ := hargs (hrun₁.runs.validState hst) h₂
  have hcalled := hrun₁.usable.later hrun₂.runs.later
  obtain ⟨hruns₃, hfn, hlength, heq₃⟩ := callee_ok hrun₂.runs.valid hcalled.type h₃
  obtain ⟨hparams, hresult, hlatent⟩ := Ty.usable_fn.mp hfn
  have htyped (a : Typed) (ha : a ∈ typed) := (hrun₂.usable a ha).later hruns₃.later
  have hturn := unifiesInTurn_of_arguments (by simp [hlength, hrun₂.length])
    (by simp [hrun₂.length]) h₄
  obtain ⟨hruns₄, heq₄⟩ := hturn.runs hruns₃.valid hparams
    (forall_mem_map.mpr fun a ha => (htyped a ha).type)
  obtain ⟨hruns₅, heffects, hle⟩ := join_record_ok hruns₄.valid (fun r hr => by
    rcases mem_callRows.mp hr with rfl | ⟨a, ha, rfl⟩ | rfl
    · exact (hcalled.effects.later hruns₃.later).later hruns₄.later
    · exact (htyped a ha).effects.later hruns₄.later
    · exact hlatent.later hruns₄.later) h₅ hrecord
  have hwhole := (((hrun₁.runs.trans hrun₂.runs fun P henv _ => hrun₁.runs.env ▸ henv).andThen
    hruns₃ fun P _ hO => hO.1.1).andThen hruns₄ fun P _ hO =>
      ⟨(Ty.over_fn.mp hO.2).1, forall_mem_map.mpr fun a ha => (hO.1.2 a ha).1⟩).andThen
    hruns₅ fun P _ hO r hr => by
      rcases mem_callRows.mp hr with rfl | ⟨a, ha, rfl⟩ | rfl
      · exact hO.1.1.1.2
      · exact (hO.1.1.2 a ha).2
      · exact (Ty.over_fn.mp hO.1.2).2.2
  refine ⟨(hwhole.imp (fun _ h => h) fun P _ _ hO => ⟨(Ty.over_fn.mp hO.1.1.2).2.1, hO.2⟩).visit
    (by rw [visits, after_of_ok h₁]) hok, ⟨(hresult.later hruns₄.later).later
      hruns₅.later, heffects⟩, fun I hapart U hU => ?_⟩
  -- what absorbs the last substitution absorbs all earlier ones, so each part keeps its derivation
  have hU₄ := hruns₅.absorbs hruns₄.valid hU
  have hU₃ := hruns₄.absorbs hruns₃.valid hU₄
  have hU₂ := hruns₃.absorbs hrun₂.runs.valid hU₃
  have hderived₁ := hrun₁.derives I hapart U (hrun₂.runs.absorbs hrun₁.runs.valid hU₂)
  have hderived₂ := hrun₂.derives _ (hrun₁.runs.apart hapart fun P h _ => h) U hU₂
    (effects.under U) fun a ha => hle U hU _ (mem_callRows.mpr (.inr (.inl ⟨a, ha, rfl⟩)))
  have hts : typed.map (·.type.under U) = params.map (·.under U) := by
    rw [heq₄ U hU₄, map_map]
    rfl
  rw [heq₃ U hU₃, Ty.under_fn] at hderived₁
  rw [hrun₁.runs.env, hts] at hderived₂
  exact .call hderived₁ hderived₂ (hle U hU _ (mem_callRows.mpr (.inl rfl)))
    (hle U hU _ (mem_callRows.mpr (.inr (.inr rfl))))

/-! ## Lists and tuples of expressions -/

theorem soundAll_nil : SoundAll reg [] := by
  intro st rs st' hst h
  obtain ⟨rfl, rfl⟩ := pure_eq_ok.mp h
  exact ⟨(Runs.refl hst.subst (by simp)).walks, by simp, rfl, fun _ _ _ _ _ _ => .nil⟩

theorem soundAll_cons {e : Expr} {es : List Expr} (he : Sound reg e) (hes : SoundAll reg es) :
    SoundAll reg (e :: es) := by
  intro st rs st' hst h
  simp only [exprs, bind_eq_ok, pure_eq_ok] at h
  obtain ⟨r, st₁, h₁, rs, st₂, h₂, rfl, rfl⟩ := h
  have hrun₁ := he hst h₁
  have hrun₂ := hes (hrun₁.runs.validState hst) h₂
  have hwhole := hrun₁.runs.trans hrun₂.runs fun P henv _ => hrun₁.runs.env ▸ henv
  rw [← after_of_ok h₁ (k := fun _ st => visitsAll reg es st)] at hwhole
  refine ⟨hwhole.imp (fun _ h => h) fun P _ _ hO => forall_mem_cons.mpr hO,
    forall_mem_cons.mpr ⟨hrun₁.usable.later hrun₂.runs.later, hrun₂.usable⟩,
    by simp [hrun₂.length], fun I hapart U hU ε hε => ?_⟩
  rw [forall_mem_cons] at hε
  have hderived₂ := hrun₂.derives _ (hrun₁.runs.apart hapart fun P h _ => h) U hU ε hε.2
  rw [hrun₁.runs.env] at hderived₂
  exact .cons (hrun₁.derives I hapart U (hrun₂.runs.absorbs hrun₁.runs.valid hU)) hε.1 hderived₂

theorem sound_tuple {elems : List Expr} (helems : SoundAll reg elems) :
    Sound reg (.tuple span elems) := by
  intro st r st' hst h
  have hok := h
  simp only [expr, bind_eq_ok, pure_eq_ok] at h
  obtain ⟨typed, st₁, h₁, effects, st₂, h₂, _, st₃, hrecord, rfl, rfl⟩ := h
  have hrun := helems hst h₁
  obtain ⟨hruns₂, heffects, hle⟩ := join_record_ok hrun.runs.valid
    (forall_mem_map.mpr fun r hr => (hrun.usable r hr).effects) h₂ hrecord
  have hwhole := hrun.runs.andThen hruns₂ fun P _ hO =>
    forall_mem_map.mpr fun r hr => (hO r hr).2
  refine ⟨(hwhole.imp (fun _ h => h) fun P _ _ hO =>
      ⟨Ty.over_tuple.mpr (forall_mem_map.mpr fun r hr => (hO.1 r hr).1), hO.2⟩).visit rfl hok,
    ⟨?_, heffects⟩, fun I hapart U hU => ?_⟩
  · exact Ty.usable_tuple
      (forall_mem_map.mpr fun r hr => (hrun.usable r hr).type.later hruns₂.later)
  · have hderived := hrun.derives I hapart U (hruns₂.absorbs hrun.runs.valid hU) (effects.under U)
      fun r hr => hle U hU _ (mem_map_of_mem hr)
    rw [Ty.under_tuple, map_map]
    exact .tuple hderived

/-! ## Stated types -/

/-- A value that has been made to fit a written type is described by it. -/
theorem stated_ok {written : Spanned TypeExpr} {declared : Ty} {origin : Origin}
    (hst : st.subst.Valid st.fresh)
    (ht : t.Usable st.fresh) (hresolve : resolve reg written st = .ok declared st₁)
    (hunify : unify declared t origin st₁ = .ok u st') :
    Runs st st' t.Over declared.Over ∧ declared.Usable st'.fresh ∧
      ∀ U : Valuation, U.Absorbs st'.subst →
        declared.under U = t.under U ∧ written.node.Describes reg (t.under U) := by
  obtain ⟨hdraws, husable, hover, hdescribes⟩ := resolve_ok hst.distinct hresolve
  obtain ⟨hruns, heq⟩ := unify_ok (hdraws.valid hst) husable (ht.later hdraws.later) hunify
  have hdrawn := hdraws.runs hst (I := t.Over) fun P hP ht => And.intro (hover P hP) ht
  refine ⟨(hdrawn.trans hruns fun P _ hO => hO).imp (fun _ h => h) fun P _ _ hO => hO.1.1,
    husable.later hruns.later, fun U hU => ⟨heq U hU, ?_⟩⟩
  rw [← heq U hU]
  exact hdescribes U

/-- A type that has been made to fit a stated one. -/
theorem fitStated_ok {stated : Option (Spanned TypeExpr)} (hst : st.subst.Valid st.fresh)
    (ht : t.Usable st.fresh) (h : fitStated reg stated t st = .ok u st') :
    Runs st st' t.Over (fun _ => True) ∧ ∀ U : Valuation, U.Absorbs st'.subst →
      ∀ written ∈ stated, written.node.Describes reg (t.under U) := by
  rcases stated with _ | written
  · obtain ⟨-, rfl⟩ := pure_eq_ok.mp h
    exact ⟨.refl hst fun _ _ => trivial, by simp⟩
  · simp only [fitStated, bind_eq_ok] at h
    obtain ⟨declared, st₁, hresolve, hunify⟩ := h
    obtain ⟨hruns, -, hdescribes⟩ := stated_ok hst ht hresolve hunify
    exact ⟨hruns.imp (fun _ h => h) fun _ _ _ _ => trivial,
      fun U hU => by simpa using (hdescribes U hU).2⟩

theorem sound_ascribe {inner : Expr} {written : Spanned TypeExpr} (hinner : Sound reg inner) :
    Sound reg (.ascribe span inner written) := by
  intro st r st' hst h
  have hok := h
  simp only [expr, bind_eq_ok, pure_eq_ok] at h
  obtain ⟨typed, st₁, h₁, declared, st₂, hresolve, _, st₃, hunify, _, st₄, hrecord, rfl, rfl⟩ := h
  have hrun := hinner hst h₁
  obtain ⟨hruns, hdeclared, hstated⟩ := stated_ok hrun.runs.valid hrun.usable.type hresolve hunify
  have hrecorded := record_ok hrecord
  have hwhole := (hrun.runs.andThen hruns fun P _ hO => hO.1).andThen
    (hrecorded.runs hruns.valid (I := declared.Over) fun P _ h => h) fun P _ hO => hO.2
  refine ⟨(hwhole.imp (fun _ h => h) fun P _ _ hO => ⟨hO.2, hO.1.1.2⟩).visit rfl hok,
    ⟨hdeclared.later hrecorded.later,
      (hrun.usable.effects.later hruns.later).later hrecorded.later⟩, fun I hapart U hU => ?_⟩
  have hU₃ : U.Absorbs st₃.subst := hrecorded.subst ▸ hU
  obtain ⟨heq, hdescribes⟩ := hstated U hU₃
  rw [heq]
  exact .ascribe (hrun.derives I hapart U (hruns.absorbs hrun.runs.valid hU₃)) hdescribes

/-! ## Choices -/

theorem sound_cond {condition onTrue onFalse : Expr} (hcondition : Sound reg condition)
    (hTrue : Sound reg onTrue)
    (hFalse : Sound reg onFalse) : Sound reg (.cond span condition onTrue onFalse) := by
  intro st r st' hst h
  have hok := h
  simp only [expr, bind_eq_ok, pure_eq_ok] at h
  obtain ⟨cond, st₁, h₁, _, st₂, h₂, yes, st₃, h₃, no, st₄, h₄, _, st₅, h₅, effects, st₆, h₆, _,
    st₇, hrecord, rfl, rfl⟩ := h
  have hrun₁ := hcondition hst h₁
  obtain ⟨hruns₂, heq₂⟩ := unify_ok hrun₁.runs.valid (Ty.usable_prim .bool) hrun₁.usable.type h₂
  have hst₂ := hruns₂.validState (hrun₁.runs.validState hst)
  have hrun₃ := hTrue hst₂ h₃
  have hrun₄ := hFalse (hrun₃.runs.validState hst₂) h₄
  have hyes := hrun₃.usable.later hrun₄.runs.later
  obtain ⟨hruns₅, heq₅⟩ := unify_ok hrun₄.runs.valid hyes.type hrun₄.usable.type h₅
  -- the effects of the condition are still usable after both branches
  have hcond := (((hrun₁.usable.later hruns₂.later).later hrun₃.runs.later).later
    hrun₄.runs.later).later hruns₅.later
  obtain ⟨hruns₆, heffects, hle⟩ := join_record_ok hruns₅.valid (by
    simpa using ⟨hcond.effects, hyes.effects.later hruns₅.later,
      hrun₄.usable.effects.later hruns₅.later⟩) h₆ hrecord
  have henv₂ : st₂.env = st.env := hruns₂.env.trans hrun₁.runs.env
  have henv₃ : st₃.env = st.env := hrun₃.runs.env.trans henv₂
  have hwhole := ((((hrun₁.runs.andThen hruns₂ fun P _ hO => ⟨Ty.over_prim .bool, hO.1⟩).trans
    hrun₃.runs fun P henv _ => henv₂ ▸ henv).trans hrun₄.runs fun P henv _ => henv₃ ▸ henv).andThen
    hruns₅ fun P _ hO => ⟨hO.1.2.1, hO.2.1⟩).andThen hruns₆ fun P _ hO => by
      simpa using ⟨hO.1.1.1.1.2, hO.1.1.2.2, hO.1.2.2⟩
  refine ⟨(hwhole.imp (fun _ h => h) fun P _ _ hO => ⟨hO.1.1.1.2.1, hO.2⟩).visit
    (by rw [visits, after_of_ok h₁, after_of_ok h₂, after_of_ok h₃, append_assoc]) hok,
    ⟨(hyes.type.later hruns₅.later).later hruns₆.later, heffects⟩, fun I hapart U hU => ?_⟩
  have hU₅ := hruns₆.absorbs hruns₅.valid hU
  have hU₄ := hruns₅.absorbs hrun₄.runs.valid hU₅
  have hU₃ := hrun₄.runs.absorbs hrun₃.runs.valid hU₄
  have hU₂ := hrun₃.runs.absorbs hruns₂.valid hU₃
  have hapart₁ := hrun₁.runs.apart hapart fun P h _ => h
  have hapart₂ := hruns₂.apart hapart₁ fun P _ h => ⟨Ty.over_prim .bool, h.2.1⟩
  have hapart₃ := hrun₃.runs.apart hapart₂ fun P h _ => h
  have hderived₁ := hrun₁.derives I hapart U (hruns₂.absorbs hrun₁.runs.valid hU₂)
  have hderived₃ := hrun₃.derives _ hapart₂ U hU₃
  have hderived₄ := hrun₄.derives _ hapart₃ U hU₄
  -- the condition is a truth value and the second branch has the type of the first one
  rw [← heq₂ U hU₂] at hderived₁
  rw [henv₂] at hderived₃
  rw [henv₃, ← heq₅ U hU₅] at hderived₄
  exact .cond hderived₁ hderived₃ hderived₄ (hle U hU _ (by simp)) (hle U hU _ (by simp))
    (hle U hU _ (by simp))

theorem unifyArm_ok {first other : Ty} {firstSpan : Span}
    (h : unifyArm first firstSpan other span st = .ok u st') :
    unify first other ⟨span, .matchArms⟩ st = .ok u st' := by
  refine (of_tryCatch_eq_ok h).resolve_right ?_
  rintro ⟨e, st₁, herror⟩
  -- the handler only rewords errors
  cases e <;> simp [apply, bind_eq_ok, throw_eq_ok] at herror

/-- The type of the first arm, after the given one. -/
def firstOf (first : Option (Ty × Span)) (t : Ty) (span : Span) : InferM (Ty × Span) :=
  match first with
  | none => return (t, span)
  | some (t₁, span₁) => do
    unifyArm t₁ span₁ t span
    return (t₁, span₁)

theorem firstOf_ok {first₁ : Ty × Span} (hst : st.subst.Valid st.fresh)
    (hfirst : ∀ t ∈ first, t.1.Usable st.fresh)
    (ht : t.Usable st.fresh) (h : firstOf first t span st = .ok first₁ st') :
    Runs st st' (fun P => t.Over P ∧ ∀ t ∈ first, t.1.Over P) first₁.1.Over ∧
      first₁.1.Usable st'.fresh ∧ (∀ t ∈ first, first₁ = t) ∧
      ∀ U : Valuation, U.Absorbs st'.subst → first₁.1.under U = t.under U := by
  rcases first with _ | ⟨t₁, span₁⟩
  · obtain ⟨rfl, rfl⟩ := pure_eq_ok.mp h
    exact ⟨.refl hst fun _ hI => hI.1, ht, by simp, fun _ _ => rfl⟩
  · simp only [firstOf, bind_eq_ok, pure_eq_ok] at h
    obtain ⟨_, _, harm, rfl, rfl⟩ := h
    have ht₁ := hfirst (t₁, span₁) rfl
    obtain ⟨hruns, heq⟩ := unify_ok hst ht₁ ht (unifyArm_ok harm)
    exact ⟨hruns.imp (fun P hI => ⟨hI.2 _ rfl, hI.1⟩) fun P _ hI _ => hI.2 _ rfl,
      ht₁.later hruns.later, by simp, heq⟩

/-- The inference of arms, from one to the next. -/
theorem arms_cons (reg : Registry) (t₀ : Ty) (first : Option (Ty × Span)) (p : Pattern)
    (body : Expr) (rest : List (Pattern × Expr)) :
    arms reg t₀ first ((p, body) :: rest) = (do
      let typed ← withScope do
        pattern reg p t₀
        expr reg body
      let first₁ ← firstOf first typed.type body.span
      let (first', rows) ← arms reg t₀ (some first₁) rest
      return (first', typed.effects :: rows)) := by
  rw [arms]
  rcases first with _ | ⟨t, span⟩
  · rfl
  · simp only [firstOf, bind_assoc, pure_bind]

theorem soundArms_nil {t₀ : Ty} : SoundArms reg t₀ first [] := by
  intro st st' first' rows hst ht₀ hfirst h
  simp only [arms, pure_eq_ok, Prod.mk.injEq] at h
  obtain ⟨⟨rfl, rfl⟩, rfl⟩ := h
  exact ⟨(Runs.refl hst.subst fun P hI => ⟨hI.2.2, by simp⟩).walks, ⟨hfirst, by simp⟩,
    fun t ht => ht,
    by simp, fun _ _ _ _ _ _ _ => .nil⟩

theorem soundArms_cons {t₀ : Ty} {rest : List (Pattern × Expr)} (hbody : Sound reg body)
    (hrest : ∀ first, SoundArms reg t₀ (some first) rest) :
    SoundArms reg t₀ first ((p, body) :: rest) := by
  intro st st' first' rows hst ht₀ hfirst h
  simp only [arms_cons, bind_eq_ok, pure_eq_ok, Prod.mk.injEq] at h
  obtain ⟨typed, _, hscope, first₁, st₃, hfirst₁, ⟨first', rows⟩, st₄, harms, ⟨rfl, rfl⟩, rfl⟩ := h
  have hone : arms reg t₀ first [(p, body)] st = .ok (some first₁, [typed.effects]) st₃ := by
    rw [arms_cons]
    exact bind_eq_ok.mpr ⟨typed, _, hscope, bind_eq_ok.mpr ⟨first₁, st₃, hfirst₁, rfl⟩⟩
  obtain ⟨st₂, hact, rfl⟩ := withScope_ok hscope
  simp only [bind_eq_ok] at hact
  obtain ⟨_, st₁, hpattern, hexpr⟩ := hact
  obtain ⟨bindings, hbinds, hfits⟩ := pattern_ok p hst.push.subst hst.push.reg ht₀ hpattern
  have hrun := (hbinds.scope hst.env).run hst hbody hexpr
  have hst₂ := hrun.runs.validState hst
  -- the type of the first arm is equal to that of this one
  obtain ⟨hruns, husable, hkeeps, heq⟩ := firstOf_ok hst₂.subst
    (fun t ht => (hfirst t ht).later hrun.runs.later) hrun.usable.type hfirst₁
  have hrest := hrest first₁ (hruns.validState hst₂) ((ht₀.later hrun.runs.later).later hruns.later)
    (by simpa using husable) harms
  have henv : st₃.env = st.env := hruns.env.trans hrun.runs.env
  have hfirst' : first' = some first₁ := hrest.first_eq _ rfl
  have hscoped : Walks reg (visits reg body st₁) st (closeScope st₂)
      (fun P => st.env.Over P ∧ t₀.Over P ∧ ∀ t ∈ first, t.1.Over P) typed.Over :=
    hrun.runs.imp (fun P hI => ⟨hI.1, hI.2.1⟩) fun _ _ _ h => h
  have hwhole := (hscoped.andThen hruns fun P hI hO => ⟨hO.1, hI.2.2⟩).trans hrest.runs
    fun P hI hO => ⟨henv ▸ hI.1, hI.2.1, by simpa using hO.2⟩
  -- back through the states: after the first types were made equal, and after the body
  have hU₂ {U : Valuation} (hU : U.Absorbs st₄.subst) : U.Absorbs st₂.subst :=
    hruns.absorbs hst₂.subst (hrest.runs.absorbs hruns.valid hU)
  refine ⟨?_, ⟨hrest.usable.1, forall_mem_cons.mpr ⟨?_, hrest.usable.2⟩⟩,
    fun t ht => hkeeps t ht ▸ hfirst', fun U hU => forall_mem_cons.mpr
      ⟨⟨_, hfits U (hrun.absorbs (hU₂ hU))⟩, hrest.fits U hU⟩, fun hapart U hU t ε ht hε => ?_⟩
  · rw [visitsArms, after_of_ok hpattern, after_of_ok hone]
    exact hwhole.imp (fun _ h => h) fun P _ _ hO => ⟨hO.2.1, forall_mem_cons.mpr ⟨hO.1.1.2, hO.2.2⟩⟩
  · exact (hrun.usable.effects.later hruns.later).later hrest.runs.later
  · rw [forall_mem_cons] at hε
    have hapart₂ := hrun.runs.apart hapart fun P henv hI => ⟨henv, hI.1⟩
    have hapart₃ := hruns.apart hapart₂ fun P _ hI => ⟨hI.2.1, hI.1.2⟩
    have hbody := hrun.derives (hapart.imp fun P h => h.1) U (hU₂ hU)
    have harms := hrest.derives (hapart₃.imp fun P h => ⟨h.1.1.1, by simpa using h.2⟩) U hU t ε ht
      hε.2
    rw [hbinds.under_env, ← heq U (hrest.runs.absorbs hruns.valid hU), ht _ hfirst'] at hbody
    rw [henv] at harms
    exact .cons (hfits U (hrun.absorbs (hU₂ hU))) hbody hε.1 harms

/-- The type of a choice is that of its first arm; a choice without arms has a fresh one. -/
def armsType (first : Option (Ty × Span)) : InferM Ty :=
  match first with
  | some (t, _) => return t
  | none => freshType

theorem armsType_ok (hst : st.subst.Valid st.fresh) (hfirst : ∀ t ∈ first, t.1.Usable st.fresh)
    (h : armsType first st = .ok t st') :
    Draws st st' ∧ t.Usable st'.fresh ∧ (∀ t' ∈ first, t'.1 = t) ∧
      ∀ P, st.Inside P → (∀ t' ∈ first, t'.1.Over P) → t.Over P := by
  rcases first with _ | ⟨t₁, span⟩
  · obtain ⟨hdraws, hout⟩ := freshType_ok hst.distinct h
    exact ⟨hdraws, usable_of_handedOut hout, by simp, fun P hP _ => over_of_handedOut hP hout⟩
  · obtain ⟨rfl, rfl⟩ := pure_eq_ok.mp h
    exact ⟨.refl st, hfirst _ rfl, by simp, fun P _ hI => hI _ rfl⟩

theorem expr_cases (reg : Registry) (span : Span) (scrutinee : Expr)
    (branches : List (Pattern × Expr)) :
    expr reg (.cases span scrutinee branches) = (do
      let value ← expr reg scrutinee
      let (first, rows) ← arms reg value.type none branches
      recordCases ⟨value.type, branches.map (·.1), span⟩
      let t ← armsType first
      let effects ← join (value.effects :: rows) ⟨span, .callEffects⟩
      record .cases "match" t "" span
      return { type := t, effects }) := by
  rw [expr]
  refine congrArg _ (funext fun value => congrArg _ (funext fun found => ?_))
  obtain ⟨_ | ⟨t, firstSpan⟩, rows⟩ := found <;> rfl

theorem sound_cases {scrutinee : Expr} {branches : List (Pattern × Expr)}
    (hscrutinee : Sound reg scrutinee) (hbranches : ∀ t₀, SoundArms reg t₀ none branches) :
    Sound reg (.cases span scrutinee branches) := by
  intro st r st' hst h
  have hok := h
  simp only [expr_cases, bind_eq_ok, pure_eq_ok] at h
  obtain ⟨value, st₁, h₁, ⟨first, rows⟩, st₂, h₂, _, st₃, hcases, t, st₄, harms, effects, st₅,
    h₅, _, st₆,
    hrecord, rfl, rfl⟩ := h
  have hrun₁ := hscrutinee hst h₁
  have hrun₂ := hbranches _ (hrun₁.runs.validState hst) hrun₁.usable.type (by simp) h₂
  have hpreserves₃ := recordCases_ok hcases
  have hst₃ := hpreserves₃.valid hrun₂.runs.valid
  obtain ⟨hdraws₄, ht, hfirst, htover⟩ := armsType_ok hst₃
    (fun t ht => (hrun₂.usable.1 t ht).later hpreserves₃.later) harms
  have hlater := hpreserves₃.later.trans hdraws₄.later
  obtain ⟨hruns₅, heffects, hle⟩ := join_record_ok (hdraws₄.valid hst₃) (forall_mem_cons.mpr
    ⟨(hrun₁.usable.effects.later hrun₂.runs.later).later hlater,
      fun r hr => (hrun₂.usable.2 r hr).later hlater⟩) h₅ hrecord
  -- the patterns fit whatever the type of the value comes to stand for after the arms
  have hwalks₃ : Walks reg [] st₂ st₃ (fun P => value.type.Over P ∧ ∀ t ∈ first, t.1.Over P)
      fun P => ∀ t ∈ first, t.1.Over P :=
    walks_recordCases hrun₂.runs.valid hcases (fun P hI => hI.2) fun P _ hI =>
      ⟨hI.1, fun U hU => forall_mem_map.mpr (hrun₂.fits U hU)⟩
  have hwhole := (((hrun₁.runs.trans hrun₂.runs fun P henv hO =>
      ⟨hrun₁.runs.env ▸ henv, hO.1, by simp⟩).trans hwalks₃ fun P _ hO => ⟨hO.1.1, hO.2.1⟩).andThen
    (hdraws₄.runs hst₃ htover) fun P _ hO => hO.2).andThen hruns₅ fun P _ hO =>
      forall_mem_cons.mpr ⟨hO.1.1.1.2, hO.1.1.2.2⟩
  refine ⟨(hwhole.imp (fun _ h => h) fun P _ _ hO => ⟨hO.1.2, hO.2⟩).visit
    (by rw [visits, after_of_ok h₁, append_nil]) hok, ⟨ht.later hruns₅.later, heffects⟩,
    fun I hapart U hU => ?_⟩
  have hU₂ : U.Absorbs st₂.subst := by
    have hU₄ := hruns₅.absorbs (hdraws₄.valid hst₃) hU
    rwa [hdraws₄.subst, hpreserves₃.subst] at hU₄
  have hle₅ := forall_mem_cons.mp (hle U hU)
  have hvalue := hrun₁.derives I hapart U (hrun₂.runs.absorbs hrun₁.runs.valid hU₂)
  have hapart₁ := hrun₁.runs.apart hapart fun P h _ => h
  have harms := hrun₂.derives (hapart₁.imp fun P h => ⟨h.2.1, by simp⟩) U hU₂ (t.under U)
    (effects.under U) (fun t' ht' => hfirst t' ht' ▸ rfl) hle₅.2
  rw [hrun₁.runs.env] at harms
  exact .cases hvalue harms hle₅.1

/-! ## Local definitions -/

/-- Values have no effects. -/
theorem effects_of_isValue {e : Expr} (he : e.isValue = true) (h : expr reg e st = .ok r st') :
    r.effects = .pure := by
  cases e with
  | lit span value =>
    simp only [expr, bind_eq_ok, pure_eq_ok] at h
    obtain ⟨_, _, _, rfl, _⟩ := h
    rfl
  | var span name =>
    simp only [expr, bind_eq_ok, get_eq_ok] at h
    obtain ⟨_, _, ⟨rfl, rfl⟩, h⟩ := h
    rcases hσ : st.env.get? name with _ | σ
    · simp only [hσ, throw_eq_ok] at h
    · simp only [hσ, bind_eq_ok, pure_eq_ok] at h
      obtain ⟨_, _, _, _, _, _, rfl, _⟩ := h
      rfl
  | lambda span params body =>
    simp only [expr, bind_eq_ok, pure_eq_ok] at h
    obtain ⟨_, _, _, _, _, _, _, _, _, rfl, _⟩ := h
    rfl
  | call | letIn | cond | cases | ascribe | tuple => cases he

/-- The names of a pattern with one type each, or a name with a generalised type. -/
theorem bindLet_ok {value : Expr} (hst : st.Valid reg) (ht : t.Usable st.fresh)
    (h : bindLet reg p value t (opened st) = .ok u st₁) :
    Scope st st₁ t.Over ∧
      ((∃ bindings : List (String × Ty),
        (∀ U : Valuation, U.Absorbs st₁.subst → p.Fits reg (t.under U) (U.bindings bindings)) ∧
        ∀ U, st₁.env.under U = (st.env.under U).bindAll (U.bindings bindings)) ∨
      ∃ nameSpan name σ fixed tails, p = .var nameSpan name ∧ value.isValue = true ∧
        σ.Generalizes t st.subst fixed tails ∧
        (∀ y, (st.env.push.freeVars st.subst).Has y → fixed.Has y) ∧
        st₁.env = st.env.push.bind name σ) := by
  by_cases hname : ∃ nameSpan name, p = .var nameSpan name
  · obtain ⟨nameSpan, name, rfl⟩ := hname
    rcases hvalue : value.isValue with _ | _
    · -- what has to be computed keeps one type, taken under the substitution
      simp only [bindLet, hvalue, Bool.false_eq_true, if_false, apply, bind_eq_ok, get_eq_ok,
        pure_eq_ok] at h
      obtain ⟨_, _, ⟨_, _, ⟨rfl, rfl⟩, rfl, rfl⟩, h⟩ := h
      have happlied := (Draws.refl (opened st)).runs hst.push.subst
        fun P hP => hst.subst.acyclic.apply_over (t := t) hP.closed
      have hbinds := BindsNames.after happlied
        (bindMono_ok hst.push.subst (hst.subst.apply_usable ht) h) fun P _ hO => hO
      refine ⟨hbinds.scope hst.env, .inl ⟨_, fun U hU => ?_, hbinds.under_env⟩⟩
      have hU₀ := hbinds.advances.absorbs hst.push.subst hU
      rw [← Subst.under_apply hU₀]
      exact .var
    · simp only [bindLet, hvalue, if_true] at h
      have hbound : bindGeneralized nameSpan name t (opened st) = .ok u st₁ := h
      have hretains (V : Valuation) (G : Given → Prop) (hV : V.Absorbs (opened st).subst)
          (hG : ∀ σ ∈ st₁.env.locals, ∀ g ∈ σ.givens, G g) : Retains V G (opened st) st₁ :=
        retains_bindGeneralized hV hbound hG
      obtain ⟨σ, fixed, tails, hσ, hfixed, hsubst, hfresh, henv, hpending⟩ :=
        bindGeneralized_ok hbound
      exact ⟨scope_of_generalizes hst ht hσ hfixed hsubst hfresh henv hpending
          (hretains _ _),
        .inr ⟨nameSpan, name, σ, fixed, tails, rfl, rfl, hσ, hfixed, henv⟩⟩
  · -- any other pattern is checked as in a choice
    have hpattern : pattern reg p t (opened st) = .ok u st₁ := by
      cases p with
      | var nameSpan name => exact (hname ⟨nameSpan, name, rfl⟩).elim
      | wildcard | lit | constructor | tuple => exact h
    obtain ⟨bindings, hbinds, hfits⟩ := pattern_ok p hst.push.subst hst.push.reg ht hpattern
    exact ⟨hbinds.scope hst.env, .inl ⟨bindings, hfits, hbinds.under_env⟩⟩

/-- The inference of a local definition, with the stated type as one step. -/
theorem expr_letIn (reg : Registry) (span : Span) (p : Pattern)
    (stated : Option (Spanned TypeExpr)) (value body : Expr) :
    expr reg (.letIn span p stated value body) = (do
      let bound ← expr reg value
      fitStated reg stated bound.type
      let rest ← withScope do
        bindLet reg p value bound.type
        expr reg body
      let effects ← join [bound.effects, rest.effects] ⟨span, .callEffects⟩
      record .letIn "let" rest.type "" span
      return { type := rest.type, effects }) := by
  rw [expr]
  rcases stated with _ | written
  · rfl
  · simp only [fitStated, bind_assoc]

theorem sound_letIn {stated : Option (Spanned TypeExpr)} {value : Expr} (hvalue : Sound reg value)
    (hbody : Sound reg body) : Sound reg (.letIn span p stated value body) := by
  intro st r st' hst h
  have hok := h
  simp only [expr_letIn, bind_eq_ok, pure_eq_ok] at h
  obtain ⟨bound, st₁, h₁, _, st₂, h₂, rest, _, hscope, effects, st₅, h₅, _, st₆, hrecord, rfl,
      rfl⟩ := h
  have hrun₁ := hvalue hst h₁
  obtain ⟨hruns₂, hstated⟩ := fitStated_ok hrun₁.runs.valid hrun₁.usable.type h₂
  have hst₂ := hruns₂.validState (hrun₁.runs.validState hst)
  have henv₂ : st₂.env = st.env := hruns₂.env.trans hrun₁.runs.env
  have hbound₂ := hrun₁.usable.later hruns₂.later
  obtain ⟨st₄, hact, rfl⟩ := withScope_ok hscope
  simp only [bind_eq_ok] at hact
  obtain ⟨_, st₃, hbind, hexpr⟩ := hact
  obtain ⟨hopened, hbinding⟩ := bindLet_ok hst₂ hbound₂.type hbind
  have hrun := hopened.run hst₂ hbody hexpr
  have hrows : ∀ row ∈ [bound.effects, rest.effects], row.Usable (closeScope st₄).fresh :=
    forall_mem_cons.mpr ⟨hbound₂.effects.later hrun.runs.later,
      forall_mem_singleton.mpr hrun.usable.effects⟩
  obtain ⟨hruns₅, heffects, hle⟩ := join_record_ok hrun.runs.valid hrows h₅ hrecord
  have hwhole := ((hrun₁.runs.andThen hruns₂ fun P _ hO => hO.1).trans hrun.runs fun P henv hO =>
    ⟨henv₂ ▸ henv, hO.1.1⟩).andThen hruns₅ fun P _ hO => by simpa using ⟨hO.1.1.2, hO.2.2⟩
  refine ⟨(hwhole.imp (fun _ h => h) fun P _ _ hO => ⟨hO.1.2.1, hO.2⟩).visit
    (by rw [visits, after_of_ok h₁, after_of_ok h₂, after_of_ok hbind]) hok,
    ⟨hrun.usable.type.later hruns₅.later, heffects⟩, fun I hapart U hU => ?_⟩
  have hU₄ : U.Absorbs st₄.subst := hruns₅.absorbs hrun.runs.valid hU
  have hU₃ := hrun.absorbs hU₄
  have hU₂ : U.Absorbs st₂.subst := hopened.advances.absorbs hst₂.push.subst hU₃
  -- the value may be derived under every valuation that absorbs the substitution at its end
  have hapart₂ : st₂.Apart bound.type.Over :=
    (hruns₂.apart (hrun₁.runs.apart hapart fun P h _ => h) fun P _ h => h.2.1).imp
      fun P h => h.1.2.1
  have hvalue₁ {V : Valuation} (hV : V.Absorbs st₂.subst) :=
    hrun₁.derives I hapart V (hruns₂.absorbs hrun₁.runs.valid hV)
  have hbody₃ := hrun.derives hapart₂ U hU₄
  have hle₁ := hle U hU bound.effects (by simp)
  have hle₂ := hle U hU rest.effects (by simp)
  rcases hbinding with ⟨bindings, hfits, hunder⟩ |
    ⟨nameSpan, name, σ, fixed, tails, rfl, hisValue, hσ, hfixed, henv₃⟩
  · rw [hunder, henv₂] at hbody₃
    exact .letMono (hvalue₁ hU₂) (hstated U hU₂) (hfits U hU₃) hbody₃ hle₁ hle₂
  · rw [henv₃, Env.under_bind, Env.under_push, henv₂] at hbody₃
    -- every instance is the type of the value under a valuation that leaves the context alone
    have hinstances {t₁ : Ty} (ht₁ : (σ.under U).instances t₁) : ∃ V : Valuation,
        V.Absorbs st₂.subst ∧ t₁ = bound.type.under V ∧ st.env.under V = st.env.under U := by
      obtain ⟨V, hV, rfl, henv⟩ :=
        exists_valuation_of_instances hst₂.push hapart₂.push hσ hfixed hU₂ ht₁
      rw [opened, Env.under_push, Env.under_push, henv₂] at henv
      exact ⟨V, hV, rfl, henv⟩
    refine .letPoly σ U hisValue (fun t₁ ht₁ => ?_) (fun t₁ ht₁ => ?_) hbody₃ hle₂
    · obtain ⟨V, hV, rfl, henv⟩ := hinstances ht₁
      have hderived := hvalue₁ hV
      rwa [henv, effects_of_isValue hisValue h₁, Row.under_pure] at hderived
    · obtain ⟨V, hV, rfl, -⟩ := hinstances ht₁
      exact hstated V hV

/-! ## All expressions -/

mutual

theorem sound (reg : Registry) : ∀ e, Sound reg e
  | .lit span value => sound_lit span value
  | .var span name => sound_var span name
  | .lambda _ _ body => sound_lambda (sound reg body)
  | .call _ func args => sound_call (sound reg func) (soundAll reg args)
  | .letIn _ _ _ value body => sound_letIn (sound reg value) (sound reg body)
  | .cond _ condition onTrue onFalse =>
    sound_cond (sound reg condition) (sound reg onTrue) (sound reg onFalse)
  | .cases _ scrutinee branches =>
    sound_cases (sound reg scrutinee) fun t₀ => soundArms reg branches t₀ none
  | .ascribe _ inner _ => sound_ascribe (sound reg inner)
  | .tuple _ elems => sound_tuple (soundAll reg elems)

theorem soundAll (reg : Registry) : ∀ es, SoundAll reg es
  | [] => soundAll_nil
  | e :: es => soundAll_cons (sound reg e) (soundAll reg es)

theorem soundArms (reg : Registry) : ∀ arms t₀ first, SoundArms reg t₀ first arms
  | [], _, _ => soundArms_nil
  | (_, body) :: rest, t₀, _ =>
    soundArms_cons (sound reg body) fun first => soundArms reg rest t₀ (some first)

end

end Infer

end RowTyping
