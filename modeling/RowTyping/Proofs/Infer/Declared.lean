import RowTyping.Infer.Declared
import RowTyping.Proofs.Infer.Solving
import RowTyping.Proofs.Infer.Soundness

/-!
# Checking against a declared signature is sound

A definition is made to fit the declared type with the declared variables as ordinary variables
(`fitDeclared_ok`). If these come out as different variables, they can be given any meaning
afterwards, because different variables can be replaced independently
(`exists_valuation_of_isRigid`). So a definition that passes the check has every instance of its
declared type (`hasType_of_isRigid`). The obligations that are left are met by implementations or
allowed (`Obligation.AccountedFor`).
-/

namespace RowTyping

open List

theorem Pattern.FitsAll.length_eq {reg : Registry} {ps : List Pattern} {ts : List Ty}
    {bindings : List (String × Ty)} (h : Pattern.FitsAll reg ps ts bindings) :
    ts.length = ps.length := by
  induction ps generalizing ts bindings with
  | nil =>
    cases h
    rfl
  | cons p ps ih =>
    cases h with
    | cons _ hrest => rw [length_cons, length_cons, ih hrest]

/-- The same type, or the same function with no more effects. -/
inductive Ty.Narrows : Ty → Ty → Prop
  | refl (t : Ty) : Narrows t t
  | fn (params : List Ty) (result : Ty) {row row' : Row} (h : row ≤ row') :
    Narrows (.fn params result row) (.fn params result row')

/-- Schemes of the whole module mean the same under all valuations. -/
theorem Env.Usable.under_eq {env : Env} {f : Fresh} (h : env.Usable f) (hlocals : env.locals = [])
    (V W : Valuation) : env.under V = env.under W := by
  refine Env.under_congr fun name σ hσ x hx => ?_
  rcases Env.get?_eq_some hσ with hlocal | hglobal
  · rw [hlocals] at hlocal
    cases hlocal
  · exact (h.closed hglobal x hx).elim

namespace Infer

variable {reg : Registry} {st st' : InferState} {origin : Origin} {ts : List Ty} {u : Unit}
  {typed : Typed} {d : Definition}

/-! ## The declared type -/

theorem unifiesInTurn_of_unifyEach {ts' : List Ty} (hlength : ts.length = ts'.length)
    (h : unifyEach origin ts ts' st = .ok u st') : UnifiesInTurn st ts ts' st' := by
  induction ts generalizing ts' st with
  | nil =>
    obtain rfl := length_eq_zero_iff.mp hlength.symm
    obtain ⟨-, rfl⟩ := pure_eq_ok.mp h
    exact .nil
  | cons t ts ih =>
    rcases ts' with _ | ⟨t', ts'⟩
    · cases hlength
    simp only [unifyEach, bind_eq_ok] at h
    obtain ⟨_, st₁, hunify, h⟩ := h
    exact .cons hunify (ih (by simpa using hlength) h)

/-- The expressions that the inference of a definition comes to. -/
def visitsDefinition (reg : Registry) (d : Definition) (st : InferState) :
    List (Expr × InferState) :=
  if d.params.isEmpty then visits reg d.body st
  else after (parameters reg d.params) (opened st) fun _ st => visits reg d.body st

/-- As many parameters are inferred as a function has. -/
theorem FunctionRun.length_eq {params : List Pattern} {body : Expr}
    (h : FunctionRun reg st st' params body ts typed) :
    ts.length = params.length := by
  obtain ⟨_, hfits, -⟩ := h.derives _ h.runs.valid.acyclic.absorbs
  rw [← hfits.length_eq, length_map]

/-- A definition that has been made to fit a type has it, whatever the variables stand for, and what
is inferred for it stands for this type, or has fewer effects. -/
def Fits (reg : Registry) (st st' : InferState) (d : Definition) (t : Ty) : Prop :=
  Walks reg (visitsDefinition reg d st) st st' (fun P => st.env.Over P ∧ t.Over P) (fun _ => True) ∧
    (∀ I, st.Apart I → ∀ U : Valuation, U.Absorbs st'.subst →
      d.HasType reg (st.env.under U) (t.under U)) ∧
    ∃ r st₁, definition reg d st = .ok r st₁ ∧ ∀ U : Valuation, U.Absorbs st'.subst →
      U.Absorbs st₁.subst ∧ (r.type.under U).Narrows (t.under U)

private theorem fitValue_ok {t : Ty} {origin' : Origin} {st₁ st₂ : InferState} {u' : Unit}
    (hst : st.Valid reg)
    (ht : t.Usable st.fresh) (hparams : d.params = []) (hexpr : expr reg d.body st = .ok typed st₁)
    (htype : unify t typed.type origin st₁ = .ok u st₂)
    (hpure : unifyRows .pure typed.effects origin' st₂ = .ok u' st') : Fits reg st st' d t := by
  have hrun := sound reg d.body hst hexpr
  obtain ⟨hruns₁, heq₁⟩ := unify_ok hrun.runs.valid
    (ht.later hrun.runs.later) hrun.usable.type htype
  obtain ⟨hruns₂, heq₂⟩ := unifyRows_ok hruns₁.valid Row.usable_pure
    (hrun.usable.effects.later hruns₁.later) hpure
  have hbody : Walks reg (visits reg d.body st) st st₁
      (fun P => st.env.Over P ∧ t.Over P) typed.Over :=
    hrun.runs.imp (fun P hI => hI.1) fun _ _ _ hO => hO
  have hdefinition : definition reg d st = .ok typed st₁ := by rw [definition, hparams]; exact hexpr
  refine ⟨?_, fun I hapart U hU => .value hparams ?_, typed, st₁, hdefinition, fun U hU => ?_⟩
  · rw [visitsDefinition, hparams]
    exact ((hbody.andThen hruns₁ fun P hI hO => ⟨hI.2, hO.1⟩).andThen hruns₂ fun P _ hO =>
      ⟨Row.over_pure, hO.1.2⟩).imp (fun _ h => h) fun _ _ _ _ => trivial
  · have hU₁ := hruns₂.absorbs hruns₁.valid hU
    have hbody := hrun.derives I hapart U (hruns₁.absorbs hrun.runs.valid hU₁)
    rwa [← heq₁ U hU₁, ← heq₂ U hU, Row.under_pure] at hbody
  · have hU₁ := hruns₂.absorbs hruns₁.valid hU
    exact ⟨hruns₁.absorbs hrun.runs.valid hU₁, heq₁ U hU₁ ▸ .refl _⟩

private theorem fitFunction_ok {params : List Ty} {result : Ty} {latent : Row}
    {st₁ st₂ st₃ : InferState}
    {u' u'' : Unit} (hst : st.Valid reg) (ht : (Ty.fn params result latent).Usable st.fresh)
    (hparams : d.params ≠ []) (hlength : params.length = d.params.length)
    (hfunction : function reg d.params d.body st = .ok (ts, typed) st₁)
    (hts : unifyEach origin params ts st₁ = .ok u st₂)
    (hresult : unify result typed.type origin st₂ = .ok u' st₃)
    (hlatent : subeffect typed.effects latent origin st₃ = .ok u'' st') :
    Fits reg st st' d (.fn params result latent) := by
  have hrun := function_ok hst (sound reg d.body) hfunction
  obtain ⟨hps, hr, hl⟩ := Ty.usable_fn.mp (ht.later hrun.runs.later)
  have hturn := unifiesInTurn_of_unifyEach (hlength.trans hrun.length_eq.symm) hts
  obtain ⟨hruns₁, heq₁⟩ := hturn.runs hrun.runs.valid hps hrun.usableParams
  have htyped₁ := hrun.usable.later hruns₁.later
  obtain ⟨hruns₂, heq₂⟩ := unify_ok hruns₁.valid (hr.later hruns₁.later) htyped₁.type hresult
  obtain ⟨hruns₃, hle⟩ := subeffect_ok hruns₂.valid (htyped₁.effects.later hruns₂.later)
    ((hl.later hruns₁.later).later hruns₂.later) hlatent
  have hbody : Walks reg (visitsDefinition reg d st) st st₁
      (fun P => st.env.Over P ∧ (Ty.fn params result latent).Over P)
      fun P => (∀ t ∈ ts, t.Over P) ∧ typed.Over P := by
    rw [visitsDefinition, if_neg (by simpa using hparams)]
    exact hrun.runs.imp (fun P hI => hI.1) fun _ _ _ hO => hO
  have hwhole := ((hbody.andThen hruns₁
    fun P hI hO => ⟨(Ty.over_fn.mp hI.2).1, hO.1⟩).andThen hruns₂
    fun P hI hO => ⟨(Ty.over_fn.mp hI.2).2.1, hO.1.2.1⟩).andThen hruns₃ fun P hI hO =>
      ⟨hO.1.1.2.2, (Ty.over_fn.mp hI.2).2.2⟩
  have hdefinition : definition reg d st = .ok { type := .fn ts typed.type typed.effects } st₁ := by
    rw [definition, if_neg (by simpa using hparams)]
    exact bind_of_ok hfunction
  refine ⟨hwhole.imp (fun _ h => h) fun _ _ _ _ => trivial, fun I hapart U hU => ?_, _, st₁,
    hdefinition,
    fun U hU => ?_⟩
  all_goals
    have hU₂ := hruns₃.absorbs hruns₂.valid hU
    have hU₁ := hruns₂.absorbs hruns₁.valid hU₂
    have hU₀ := hruns₁.absorbs hrun.runs.valid hU₁
  · obtain ⟨bindings, hfits, hbody⟩ := hrun.derives U hU₀
    rw [← heq₁ U hU₁] at hfits
    have hbody := hbody I hapart
    rw [← heq₂ U hU₂] at hbody
    rw [Ty.under_fn]
    exact .function hparams hfits hbody (hle U hU)
  · rw [Ty.under_fn, Ty.under_fn, heq₁ U hU₁, heq₂ U hU₂]
    exact ⟨hU₀, .fn _ _ (hle U hU)⟩

theorem fitDeclared_ok {t : Ty} (hst : st.Valid reg) (ht : t.Usable st.fresh)
    (h : fitDeclared reg d t st = .ok u st') :
    Fits reg st st' d t := by
  by_cases hparams : d.params = []
  · simp only [fitDeclared, hparams, isEmpty_nil, if_true, bind_eq_ok] at h
    obtain ⟨typed, st₁, hexpr, _, st₂, htype, hpure⟩ := h
    exact fitValue_ok hst ht hparams hexpr htype hpure
  · simp only [fitDeclared, List.isEmpty_iff, hparams, if_false] at h
    cases t with
    | fn params result latent =>
      by_cases hlength : params.length = d.params.length
      · simp only [hlength, ne_eq, not_true_eq_false, if_false, bind_eq_ok] at h
        obtain ⟨⟨ts, typed⟩, st₁, hfunction, _, st₂, hts, _, st₃, hresult, hlatent⟩ := h
        exact fitFunction_ok hst ht hparams hlength hfunction hts hresult hlatent
      · simp only [ne_eq, hlength, not_false_eq_true, if_true, bind_eq_ok, throw_eq_ok, false_and,
          exists_false] at h
    | prim | var | named | app | tuple => simp only [throw_eq_ok] at h

/-! ## Rigid variables -/

/-- Where a partial map has different values on a list, anything can be put behind it. -/
private theorem exists_behind {α β γ : Type} {f : α → Option β} {as : List α} {bs : List β}
    (hbs : as.mapM f = some bs) (hnodup : bs.Nodup) (g : α → γ) (default : β → γ) :
    ∃ h : β → γ, ∀ a ∈ as, ∃ b ∈ bs, f a = some b ∧ h b = g a := by
  induction as generalizing bs with
  | nil => exact ⟨default, by simp⟩
  | cons a as ih =>
    classical
    simp only [mapM_cons, Option.bind_eq_bind, Option.bind_eq_some_iff, Option.pure_def,
      Option.some.injEq] at hbs
    obtain ⟨b, hb, bs, hrest, rfl⟩ := hbs
    obtain ⟨hnew, hnodup⟩ := nodup_cons.mp hnodup
    obtain ⟨h, hh⟩ := ih hrest hnodup
    -- the new value is not among the others, so what was put behind them stays
    refine ⟨Function.update h b (g a), forall_mem_cons.mpr
      ⟨⟨b, .head _, hb, Function.update_self ..⟩, fun a' ha' => ?_⟩⟩
    obtain ⟨b', hb', hf, hg⟩ := hh a' ha'
    have hne : b' ≠ b := fun heq => hnew (heq ▸ hb')
    exact ⟨b', .tail _ hb', hf, by rw [Function.update_of_ne hne, hg]⟩

/-- Declared variables that come out as different variables can be given any meaning. -/
theorem exists_valuation_of_isRigid {s : Subst} {σ : Scheme} (h : isRigid s σ = true)
    (V : Valuation) : ∃ W : Valuation, ∀ x ∈ σ.quantified, (s.valuation.andThen W).SameAt V x := by
  simp only [isRigid, Bool.and_eq_true, Option.any_eq_true, decide_eq_true_eq] at h
  obtain ⟨⟨vs, hvs, hvsNodup⟩, es, hes, hesNodup⟩ := h
  obtain ⟨types, htypes⟩ := exists_behind hvs hvsNodup V.types .var
  obtain ⟨effects, heffects⟩ :=
    exists_behind hes hesNodup (fun e => some (V.row e)) fun _ => none
  refine ⟨⟨types, effects⟩, fun x hx => ?_⟩
  cases x with
  | type v =>
    obtain ⟨w, -, hw, hv⟩ := htypes v (Scheme.mem_quantified_type.mp hx)
    have hvar : s.valuation.types v = .var w := by
      change s.apply (.var v) = .var w
      split at hw
      · rename_i heq
        rw [heq, Option.some.inj hw]
      · cases hw
    change (s.valuation.types v).under ⟨types, effects⟩ = V.types v
    rw [hvar, Ty.under_var]
    exact hv
  | effect e =>
    obtain ⟨w, -, hw, he⟩ := heffects e (Scheme.mem_quantified_effect.mp hx)
    have hvar : s.valuation.row e = .ofVar w := by
      change s.applyRow (.ofVar e) = .ofVar w
      split at hw
      · rename_i heq
        rw [heq, Option.some.inj hw]
        rfl
      · cases hw
    change (s.valuation.andThen ⟨types, effects⟩).row e = V.row e
    have hsorted : Sorted.ofList (V.row e).labels = (V.row e).labels :=
      Sorted.IsSorted.ofList_eq (V.isSorted_row e)
    rw [Valuation.row_andThen, hvar]
    change Valuation.row ⟨types, effects⟩ w = V.row e
    rw [Valuation.row_of_some he, hsorted]

/-- What follows the bindings to the end can give the variables of a closed scheme any meaning, if
they come out as different variables. -/
theorem exists_absorbs_of_isRigid {s : Subst} {σ : Scheme} (hs : s.Acyclic) (hσ : σ.type.RowsSorted)
    (hclosed : ∀ x, ¬ σ.Free x) (hrigid : isRigid s σ = true) (V : Valuation) :
    ∃ U : Valuation, U.Absorbs s ∧ σ.type.under U = σ.type.under V := by
  obtain ⟨W, hW⟩ := exists_valuation_of_isRigid hrigid V
  exact ⟨_, hs.absorbs_andThen W,
    hσ.under_congr fun x hx => hW x (not_not.mp fun hq => hclosed x ⟨hx, hq⟩)⟩

/-- A definition that fits a closed scheme whose variables come out as different variables has every
instance of it. -/
theorem hasType_of_isRigid {σ : Scheme} {I : Region → Prop} (hst : st.Valid reg)
    (hapart : st.Apart I) (hσ : σ.type.Usable st.fresh) (hclosed : ∀ x, ¬ σ.Free x)
    (hfit : fitDeclared reg d σ.type st = .ok u st')
    (hrigid : isRigid st'.subst σ = true) (V : Valuation) :
    ∃ U : Valuation, d.HasType reg (st.env.under U) (σ.type.under V) := by
  obtain ⟨hruns, hfits, -⟩ := fitDeclared_ok hst hσ hfit
  obtain ⟨U, hU, htype⟩ := exists_absorbs_of_isRigid hruns.valid.acyclic hσ.sorted hclosed hrigid V
  exact ⟨U, htype ▸ hfits I hapart U hU⟩

end Infer

/-! ## Obligations -/

/-- A pending obligation is accounted for under a substitution: an implementation for the head of
the type meets it, as one of the resolutions says, or it is one of the allowed requirements. -/
inductive Obligation.AccountedFor (ts : Traits) (s : Subst) (resolved : List Resolution)
    (allowed : List Given) (ob : Obligation) : Prop
  | implemented {head : String} {impl : Implementation} :
      (s.apply ob.type).headConstructor? = some head → ts.impl? ob.traitName head = some impl →
      ob.resolveBy impl ∈ resolved → AccountedFor ts s resolved allowed ob
  | allowed {g : Given} : g ∈ allowed → g.traitName = ob.traitName →
      s.apply g.type = s.apply ob.type → AccountedFor ts s resolved allowed ob

namespace Infer

variable {allowed : List Given} {σ : Scheme}

theorem mem_allowed_of_requireAllowed {vars : List TypeVar} {names : VarNames}
    {obs : List Obligation} {u : Unit}
    (h : requireAllowed vars names allowed obs = .ok u) : ∀ ob ∈ obs, ob.toGiven ∈ allowed := by
  induction obs with
  | nil => simp
  | cons ob obs ih =>
    simp only [requireAllowed] at h
    split at h
    · cases h
    split at h
    · cases h
    rename_i _ hallowed
    exact forall_mem_cons.mpr ⟨by simpa using hallowed, ih h⟩

/-! ## The check as a whole -/

theorem requireRigid_ok {span : Span} {u : Unit} (h : requireRigid σ span st = .ok u st') :
    isRigid st.subst σ = true ∧ st = st' := by
  simp only [requireRigid, bind_eq_ok, get_eq_ok] at h
  obtain ⟨_, _, ⟨rfl, rfl⟩, h⟩ := h
  rcases hrigid : isRigid st.subst σ with _ | _
  · simp only [hrigid, Bool.not_false, if_true, throw_eq_ok] at h
  · simp only [hrigid, Bool.not_true, Bool.false_eq_true, if_false, pure_eq_ok] at h
    exact ⟨rfl, h.2⟩

/-- What a successful check consists of. -/
theorem checkDeclared_inv {d : Definition} {resolved : List Resolution}
    (h : checkDeclared reg d σ allowed st = .ok resolved st') :
    ∃ st₁ solved, fitDeclared reg d σ.type st = .ok () st₁ ∧ st' = { st₁ with obligations := [] } ∧
      isRigid st₁.subst σ = true ∧ reg.traits.solve st₁.subst st₁.obligations = .ok solved ∧
      resolved = solved.resolved ∧ ∀ ob ∈ solved.residual,
        ob.toGiven ∈ allowed.map fun g => { g with type := st₁.subst.apply g.type } := by
  simp only [checkDeclared, bind_eq_ok, get_eq_ok, takeObligations, modifyGet_eq_ok, ofExcept_eq_ok,
    pure_eq_ok] at h
  obtain ⟨_, st₁, hfit, _, _, hrequire, obs, _, hobs, _, _, ⟨rfl, rfl⟩, solved, _, ⟨hsolve, rfl⟩, _,
    _, ⟨hallowed, rfl⟩, rfl, rfl⟩ := h
  obtain ⟨hrigid, rfl⟩ := requireRigid_ok hrequire
  obtain ⟨rfl, rfl⟩ := Prod.mk.inj hobs
  exact ⟨st₁, solved, hfit, rfl, hrigid, hsolve, rfl, mem_allowed_of_requireAllowed hallowed⟩

/-- A successful check makes the definition fit, leaves the declared variables different and
accounts for all obligations. -/
theorem checkDeclared_ok {d : Definition} {resolved : List Resolution}
    (h : checkDeclared reg d σ allowed st = .ok resolved st') :
    ∃ st₁, fitDeclared reg d σ.type st = .ok () st₁ ∧ st'.subst = st₁.subst ∧
      isRigid st₁.subst σ = true ∧
      ∀ ob ∈ st₁.obligations, ob.AccountedFor reg.traits st₁.subst resolved allowed := by
  obtain ⟨st₁, solved, hfit, rfl, hrigid, hsolve, rfl, hallowed⟩ := checkDeclared_inv h
  refine ⟨st₁, hfit, rfl, hrigid, fun ob hob => ?_⟩
  rcases Traits.solve_cases hsolve hob with ⟨impl, himpl, hmem⟩ | ⟨-, ob', hmem, hgiven⟩
  · obtain ⟨head, hhead, himpl⟩ := Option.bind_eq_some_iff.mp himpl
    exact .implemented hhead himpl hmem
  · -- allowed requirements are compared under the substitution
    have hg := hallowed ob' hmem
    rw [hgiven] at hg
    obtain ⟨g, hg, heq⟩ := mem_map.mp hg
    obtain ⟨htrait, htype⟩ := Given.mk.inj heq
    exact .allowed hg htrait htype

end Infer

end RowTyping
