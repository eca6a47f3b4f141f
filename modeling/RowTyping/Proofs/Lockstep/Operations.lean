import RowTyping.Proofs.Infer.Operations
import RowTyping.Proofs.Lockstep.Names
import RowTyping.Proofs.Lockstep.Unify

/-!
# Inference in lockstep: operations

States of two inferences are related when all they hold matches (`Matching.States`). Every operation
of the inference monad is in step with itself (`InStep`) at matching arguments: nothing that
inference decides depends on the ids of variables, and its errors are about matching types.
-/

namespace RowTyping

open List

/-! ## States of inference -/

namespace Matching

variable (ρ : Matching)

/-- The same requirement of matching types. -/
structure Givens (g g' : Given) : Prop where
  traitName : g.traitName = g'.traitName
  type : ρ.Types g.type g'.type

/-- The same obligation on matching types. -/
structure Obligations (ob ob' : Obligation) : Prop where
  traitName : ob.traitName = ob'.traitName
  type : ρ.Types ob.type ob'.type
  origin : ob.origin = ob'.origin

/-- Schemes that differ only in matching variables. -/
structure Schemes (σ σ' : Scheme) : Prop where
  typeVars : Forall₂ ρ.types σ.typeVars σ'.typeVars
  effectVars : Forall₂ ρ.effects σ.effectVars σ'.effectVars
  givens : Forall₂ ρ.Givens σ.givens σ'.givens
  names : ρ.Names σ.names σ'.names
  type : ρ.Types σ.type σ'.type

/-- The same choice by patterns, on values of matching types. -/
structure Choices (cases cases' : PendingCases) : Prop where
  scrutinee : ρ.Types cases.scrutinee cases'.scrutinee
  patterns : cases.patterns = cases'.patterns
  span : cases.span = cases'.span

/-- Two inferences at corresponding points, in the environments `Γ` and `Γ'`. On the right, no type
variable without a match is bound. -/
structure States (Γ Γ' : Env) (st st' : InferState) : Prop where
  supplies : ρ.Supplies st.fresh st'.fresh
  substs : ρ.Substs st.subst st'.subst
  sameSize : st.subst.SameSize st'.subst
  unmatched : ∀ {v'}, (∀ v, ¬ ρ.types v v') → st'.subst.types.get? v' = none
  obligations : Forall₂ ρ.Obligations st.obligations st'.obligations
  names : ρ.Names st.names st'.names
  pending : Forall₂ ρ.Choices st.pending st'.pending
  env : st.env = Γ
  env' : st'.env = Γ'

variable {ρ} {Γ Γ' : Env} {st st' : InferState}

namespace States

variable (h : ρ.States Γ Γ' st st')
include h

/-- What is recorded does not matter. -/
theorem note (event event' : InferEvent) :
    ρ.States Γ Γ' (st.note event) (st'.note event') := by
  unfold InferState.note
  split <;> split <;> exact { h with }

theorem valuations :
    ρ.Valuations ρ st.subst.valuation st'.subst.valuation :=
  h.substs.valuations_of_sameSize h.sameSize

theorem apply {t t' : Ty} (ht : ρ.Types t t') :
    ρ.Types (st.subst.apply t) (st'.subst.apply t') :=
  ht.under h.valuations

theorem applyRow {r r' : Row} (hr : ρ.Rows r r') :
    ρ.Rows (st.subst.applyRow r) (st'.subst.applyRow r') :=
  hr.under h.valuations

end States

end Matching

namespace Infer

open Matching

variable {ρ : Matching} {Γ Γ' : Env}

/-- In step at matching states, with the environments left as they are. -/
abbrev Together (ρ : Matching) (Γ Γ' : Env) {α β : Type} (x : InferM α) (y : InferM β)
    (R : α → β → Prop) : Prop :=
  InStep ρ.Errors (ρ.States Γ Γ') x y R (ρ.States Γ Γ')

/-! ## Drawing variables -/

theorem together_freshTypeVar : Together ρ Γ Γ' freshTypeVar freshTypeVar ρ.types :=
  .modifyGet fun _ _ h => ⟨h.supplies.typeVar.1, { h with supplies := h.supplies.typeVar.2 }⟩

theorem together_freshEffectVar : Together ρ Γ Γ' freshEffectVar freshEffectVar ρ.effects :=
  .modifyGet fun _ _ h => ⟨h.supplies.effectVar.1, { h with supplies := h.supplies.effectVar.2 }⟩

theorem together_freshType : Together ρ Γ Γ' freshType freshType ρ.Types :=
  together_freshTypeVar.bind fun _ _ hv => .pure (.var hv)

theorem together_freshRow : Together ρ Γ Γ' freshRow freshRow ρ.Rows :=
  together_freshEffectVar.bind fun _ _ he => .pure (.extended [] he)

theorem together_freshTypes {α : Type} (as : List α) :
    Together ρ Γ Γ' (freshTypes as) (freshTypes as)
      fun ts ts' => Forall₂ ρ.Types ts ts' ∧ ts.length = as.length := by
  induction as with
  | nil => exact .pure ⟨.nil, rfl⟩
  | cons a as ih =>
    refine together_freshType.bind fun t t' ht => ih.bind
      fun ts ts' hts => .pure ⟨.cons ht hts.1, ?_⟩
    rw [length_cons, length_cons, hts.2]

/-! ## Bindings -/

theorem together_apply {t t' : Ty} (ht : ρ.Types t t') :
    Together ρ Γ Γ' (apply t) (apply t') ρ.Types := by
  exact .get_bind fun st st' hst => .at_states (.pure (hst.apply ht)) hst

theorem together_applyRow {r r' : Row} (hr : ρ.Rows r r') :
    Together ρ Γ Γ' (applyRow r) (applyRow r') ρ.Rows := by
  exact .get_bind fun st st' hst => .at_states (.pure (hst.applyRow hr)) hst

theorem together_record (rule rule' : InferRule) (subject subject' detail detail' : String)
    (t t' : Ty) (span span' : Span) :
    Together ρ Γ Γ' (record rule subject t detail span) (record rule' subject' t' detail' span')
      fun _ _ => True :=
  .modify fun _ _ h => h.note _ _

theorem together_recordCases {cases cases' : PendingCases} (hcases : ρ.Choices cases cases') :
    Together ρ Γ Γ' (recordCases cases) (recordCases cases') fun _ _ => True :=
  .modify fun _ _ h => { h with pending := rel_append h.pending (.cons hcases .nil) }

/-! ## Unification -/

private theorem together_runUnify {step step' : Subst → UnifyM Subst}
    {explain explain' : Subst → UnifyError → TypingError}
    (hstep : ∀ {st st' : InferState}, ρ.States Γ Γ' st st' →
      SameOutcome ρ.Conflicts (ρ.Found st.subst st'.subst) ρ.Unifiers (step st.subst st.unifier)
        (step' st'.subst st'.unifier))
    (hexplain : ∀ {st st' : InferState} {e e' : UnifyError}, ρ.States Γ Γ' st st' →
      ρ.Conflicts e e' → ρ.Errors (explain st.subst e) (explain' st'.subst e')) :
    Together ρ Γ Γ' (runUnify step explain) (runUnify step' explain') fun _ _ => True := by
  refine .get_bind fun st st' hst => ?_
  have hsolved := hstep hst
  simp only [EStateM.run]
  generalize step st.subst st.unifier = r at hsolved ⊢
  generalize step' st'.subst st'.unifier = r' at hsolved ⊢
  cases hsolved with
  | ok hfound hu =>
    exact .set { hst with
      supplies := hu
      substs := hfound.substs
      sameSize := hfound.sameSize hst.sameSize
      unmatched := fun hv => (hfound.unmatched hv).trans (hst.unmatched hv) }
  | error he =>
    exact (InStep.set (Q := fun _ _ => True) trivial).bind fun _ _ _ => .throw (hexplain hst he)

theorem together_unify {a a' b b' : Ty} (ha : ρ.Types a a') (hb : ρ.Types b b') (origin : Origin) :
    Together ρ Γ Γ' (unify a b origin) (unify a' b' origin) fun _ _ => True := by
  refine together_runUnify (fun hst => Unify.solve_lockstep hst.substs
    (.cons (.types (hst.apply ha) (hst.apply hb)) .nil) hst.supplies (.sameSize hst.sameSize)) ?_
  intro st st' e e' hst he
  have hexpected := hst.apply ha
  have hactual := hst.apply hb
  -- the innermost conflict is told on both sides or on none
  have hwhole : e = .mismatch (st.subst.apply a) (st.subst.apply b) ↔
      e' = .mismatch (st'.subst.apply a') (st'.subst.apply b') := by
    cases he with
    | mismatch ht hu =>
      rw [UnifyError.mismatch.injEq, UnifyError.mismatch.injEq, ht.eq_iff hexpected,
        hu.eq_iff hactual]
    | rowMismatch | occurs => simp
  have hmessage := he.message_eq
  cases he with
  | occurs hv ht => exact .occurs hv ht _
  | mismatch | rowMismatch =>
    simp only [explainTypes, hwhole, hmessage]
    exact .mismatch hexpected hactual _ _ _

/-- A failed unification keeps the bindings it started with. -/
theorem subst_of_unify_error {a b : Ty} {origin : Origin} {st st₁ : InferState} {e : TypingError}
    (h : unify a b origin st = .error e st₁) : st₁.subst = st.subst := by
  have hget : (EStateM.get : InferM InferState) st = .ok st st := rfl
  generalize hrun : (Unify.types st.subst a b).run st.unifier = r
  rw [unify, runUnify] at h
  change EStateM.bind EStateM.get _ st = _ at h
  simp only [EStateM.bind, hget, hrun] at h
  cases r with
  | ok s u => cases h
  | error e u =>
    cases h
    rfl

theorem together_unifyRows {a a' b b' : Row} (ha : ρ.Rows a a') (hb : ρ.Rows b b')
    (origin : Origin) :
    Together ρ Γ Γ' (unifyRows a b origin) (unifyRows a' b' origin) fun _ _ => True :=
  together_runUnify
    (fun hst => Unify.solveRows_lockstep hst.substs (hst.applyRow ha)
      (hst.applyRow hb) hst.supplies)
    fun hst _ => .rowMismatch (hst.applyRow ha) (hst.applyRow hb) _ _

theorem together_openRow {r r' : Row} (hr : ρ.Rows r r') :
    Together ρ Γ Γ' (openRow r) (openRow r') ρ.Rows := by
  cases hr with
  | closed labels => exact together_freshEffectVar.bind fun _ _ he => .pure (.extended _ he)
  | extended labels he => exact .pure (.extended labels he)

theorem together_subeffect {sub sub' sup sup' : Row} (hsub : ρ.Rows sub sub')
    (hsup : ρ.Rows sup sup') (origin : Origin) :
    Together ρ Γ Γ' (subeffect sub sup origin) (subeffect sub' sup' origin) fun _ _ => True :=
  (together_applyRow hsub).bind fun _ _ hr => (together_openRow hr).bind fun _ _ hopened =>
    together_unifyRows hsup hopened origin

theorem together_subeffects {sup sup' : Row} (hsup : ρ.Rows sup sup') (origin : Origin)
    {rows rows' : List Row} (hrows : Forall₂ ρ.Rows rows rows') :
    Together ρ Γ Γ' (subeffects sup origin rows) (subeffects sup' origin rows')
      fun _ _ => True := by
  induction hrows with
  | nil => exact .pure trivial
  | cons hr _ ih => exact (together_subeffect hr hsup origin).bind fun _ _ _ => ih

/-- Rows in step are joined in step. -/
theorem together_join {rows rows' : List Row} (hrows : Forall₂ ρ.Rows rows rows')
    (origin : Origin) : Together ρ Γ Γ' (join rows origin) (join rows' origin) ρ.Rows := by
  refine .get_bind fun st st' hst => ?_
  have hkept : Forall₂ ρ.Rows ((rows.map st.subst.applyRow).filter (!·.isPure))
      ((rows'.map st'.subst.applyRow).filter (!·.isPure)) := by
    refine rel_filter (fun r r' hr => ?_) ?_
    · cases hr <;> simp [Row.isPure]
    · rw [forall₂_map_left_iff, forall₂_map_right_iff]
      exact hrows.imp fun _ _ hr => hst.applyRow hr
  dsimp only
  generalize (rows.map st.subst.applyRow).filter (!·.isPure) = kept at hkept ⊢
  generalize (rows'.map st'.subst.applyRow).filter (!·.isPure) = kept' at hkept ⊢
  refine .at_states ?_ hst
  cases hkept with
  | nil => exact .pure (.closed [])
  | cons hr hrest =>
    cases hrest with
    | nil => exact .pure hr
    | cons hr' hrest =>
      exact together_freshRow.bind fun _ _ hjoined =>
        (together_subeffects hjoined origin (.cons hr (.cons hr' hrest))).bind
          fun _ _ _ => together_applyRow hjoined

/-! ## Obligations -/

theorem together_constrain {t t' : Ty} (ht : ρ.Types t t') (traitName : String) (origin : Origin) :
    Together ρ Γ Γ' (constrain t traitName origin) (constrain t' traitName origin)
      fun _ _ => True :=
  .modify fun _ _ h =>
    { h with obligations := rel_append h.obligations (.cons ⟨rfl, ht, rfl⟩ .nil) }

theorem together_constrainGivens {s s' : Subst} (hs : ρ.Valuations ρ s.valuation s'.valuation)
    (span : Span) {givens givens' : List Given} (hgivens : Forall₂ ρ.Givens givens givens') :
    Together ρ Γ Γ' (constrainGivens s span givens) (constrainGivens s' span givens')
      fun _ _ => True := by
  induction hgivens with
  | nil => exact .pure trivial
  | @cons g g' _ _ hg _ ih =>
    obtain ⟨traitName, t⟩ := g
    obtain ⟨traitName', t'⟩ := g'
    obtain ⟨rfl, ht⟩ := hg
    exact (together_constrain (ht.under hs) _ _).bind fun _ _ _ => ih

theorem together_defer {obs obs' : List Obligation} (hobs : Forall₂ ρ.Obligations obs obs') :
    Together ρ Γ Γ' (defer obs) (defer obs') fun _ _ => True :=
  .modify fun _ _ h => { h with obligations := rel_append h.obligations hobs }

theorem together_takeObligations :
    Together ρ Γ Γ' takeObligations takeObligations (Forall₂ ρ.Obligations) :=
  .modifyGet fun _ _ h => ⟨h.obligations, { h with obligations := .nil }⟩

/-! ## Using schemes -/

theorem together_renewTypes {s s' : Subst} (hs : ρ.Substs s s' ∧ s.SameSize s')
    {vs vs' : List TypeVar} (hvs : Forall₂ ρ.types vs vs') :
    Together ρ Γ Γ' (renewTypes s vs) (renewTypes s' vs')
      fun s s' => ρ.Substs s s' ∧ s.SameSize s' := by
  induction hvs generalizing s s' with
  | nil => exact .pure hs
  | cons hv _ ih =>
    exact together_freshType.bind fun t t' ht =>
      ih ⟨hs.1.bindType hv ht, hs.1.sameSize_bindType hs.2 hv t t'⟩

theorem together_renewEffects {s s' : Subst} (hs : ρ.Substs s s' ∧ s.SameSize s')
    {es es' : List EffectVar} (hes : Forall₂ ρ.effects es es') :
    Together ρ Γ Γ' (renewEffects s es) (renewEffects s' es')
      fun s s' => ρ.Substs s s' ∧ s.SameSize s' := by
  induction hes generalizing s s' with
  | nil => exact .pure hs
  | cons he _ ih =>
    exact together_freshRow.bind fun r r' hr =>
      ih ⟨hs.1.bindEffect he hr, hs.1.sameSize_bindEffect hs.2 he r r'⟩

theorem together_instantiate {σ σ' : Scheme} (hσ : ρ.Schemes σ σ') (span : Span) :
    Together ρ Γ Γ' (instantiate σ span) (instantiate σ' span) ρ.Types := by
  have hplain : (σ'.isMono && σ'.givens.isEmpty) = (σ.isMono && σ.givens.isEmpty) := by
    rw [Scheme.isMono, Scheme.isMono, isEmpty_eq_of_forall₂ hσ.typeVars,
      isEmpty_eq_of_forall₂ hσ.effectVars, isEmpty_eq_of_forall₂ hσ.givens]
  rw [instantiate, instantiate, hplain]
  split
  · exact .pure hσ.type
  refine (together_renewTypes ⟨substs_empty, Subst.sameSize_empty⟩ hσ.typeVars).bind
    fun s₁ s₁' hs₁ => (together_renewEffects hs₁ hσ.effectVars).bind fun s s' hs => ?_
  have hvaluations := hs.1.valuations_of_sameSize hs.2
  refine (together_constrainGivens hvaluations span hσ.givens).bind fun _ _ _ => ?_
  have htype : ρ.Types (s.apply σ.type) (s'.apply σ'.type) := hσ.type.under hvaluations
  generalize s.apply σ.type = t at htype ⊢
  generalize s'.apply σ'.type = t' at htype ⊢
  cases htype with
  | fn hparams hresult heffects =>
    exact (together_openRow heffects).bind fun _ _ hrow => .pure (.fn hparams hresult hrow)
  | prim p => exact .pure (.prim p)
  | var hv => exact .pure (.var hv)
  | named name hargs => exact .pure (.named name hargs)
  | app hhead hargs => exact .pure (.app hhead hargs)
  | tuple helems => exact .pure (.tuple helems)

end Infer

/-! ## Written types -/

namespace Matching

/-- Two resolutions of written types at corresponding points: the same names stand for matching
variables. -/
structure Resolvers (ρ : Matching) (r r' : Resolver) : Prop where
  supplies : ρ.Supplies r.fresh r'.fresh
  types : Forall₂ (fun entry entry' => entry.1 = entry'.1 ∧ ρ.types entry.2 entry'.2)
    r.scope.types r'.scope.types
  effects : Forall₂ (fun entry entry' => entry.1 = entry'.1 ∧ ρ.effects entry.2 entry'.2)
    r.scope.effects r'.scope.effects
  isOpen : r.scope.isOpen = r'.scope.isOpen

end Matching

namespace Resolve

open Matching

variable {ρ : Matching}

theorem inStep_typeVar (span : Span) (name : String) :
    InStep ρ.Errors ρ.Resolvers (typeVar span name) (typeVar span name) ρ.types ρ.Resolvers := by
  refine .get_bind fun r r' hr => .at_states (P := ρ.Resolvers) ?_ hr
  have hfound : Option.Rel ρ.types (r.scope.type? name) (r'.scope.type? name) :=
    Dict.rel_lookup biUnique_eq hr.types rfl
  generalize r.scope.type? name = found at hfound ⊢
  generalize r'.scope.type? name = found' at hfound ⊢
  cases hfound with
  | some hv => exact .pure hv
  | none =>
    dsimp only
    rw [← hr.isOpen]
    split
    · have hnew := hr.supplies.typeVar
      refine (InStep.set ?_).bind fun _ _ _ => .pure hnew.1
      exact ⟨hnew.2, rel_append hr.types (.cons ⟨rfl, hnew.1⟩ .nil), hr.effects, hr.isOpen⟩
    · exact .throw (.same _)

theorem inStep_effectVar (span : Span) (name : String) :
    InStep ρ.Errors ρ.Resolvers (effectVar span name)
      (effectVar span name) ρ.effects ρ.Resolvers := by
  refine .get_bind fun r r' hr => .at_states (P := ρ.Resolvers) ?_ hr
  have hfound : Option.Rel ρ.effects (r.scope.effect? name) (r'.scope.effect? name) :=
    Dict.rel_lookup biUnique_eq hr.effects rfl
  generalize r.scope.effect? name = found at hfound ⊢
  generalize r'.scope.effect? name = found' at hfound ⊢
  cases hfound with
  | some he => exact .pure he
  | none =>
    dsimp only
    rw [← hr.isOpen]
    split
    · have hnew := hr.supplies.effectVar
      refine (InStep.set ?_).bind fun _ _ _ => .pure hnew.1
      exact ⟨hnew.2, hr.types, rel_append hr.effects (.cons ⟨rfl, hnew.1⟩ .nil), hr.isOpen⟩
    · exact .throw (.same _)

theorem inStep_applied (reg : Registry) (span : Span) (name : String) {args args' : List Ty}
    (hargs : Forall₂ ρ.Types args args') :
    InStep ρ.Errors ρ.Resolvers (applied reg span name args) (applied reg span name args') ρ.Types
      ρ.Resolvers := by
  rw [applied, applied, ← hargs.length_eq]
  split
  · exact (inStep_typeVar span name).bind fun _ _ hv => .pure (Types.applyTo (.var hv) hargs)
  split
  · rename_i p _
    cases hargs with
    | nil => exact .pure (.prim p)
    | cons => exact .throw (.same _)
  split
  · split
    · exact .pure (.named name hargs)
    · exact .throw (.same _)
  · exact .throw (.same _)

theorem inStep_effects (reg : Registry) (span : Span) (e : EffectExpr) :
    InStep ρ.Errors ρ.Resolvers (effects reg span e) (effects reg span e) ρ.Rows ρ.Resolvers := by
  cases e with
  | pure => exact .pure (.closed [])
  | var name => exact (inStep_effectVar span name).bind fun _ _ he => .pure (.extended [] he)
  | row labels rest =>
    unfold effects
    dsimp only
    split
    · exact .throw (.same _)
    · cases rest with
      | none => exact .pure (.closed _)
      | some name => exact (inStep_effectVar span name).bind fun _ _ he => .pure (.extended _ he)

mutual

theorem inStep_type (reg : Registry) (span : Span) (t : TypeExpr) :
    InStep ρ.Errors ρ.Resolvers (type reg span t) (type reg span t) ρ.Types ρ.Resolvers := by
  cases t with
  | named name =>
    rw [type]
    exact inStep_applied reg span name .nil
  | applied name args =>
    rw [type]
    exact (inStep_types reg span args).bind fun _ _ hargs => inStep_applied reg span name hargs
  | function params result effect =>
    rw [type]
    exact (inStep_types reg span params).bind fun _ _ hparams =>
      (inStep_type reg span result).bind fun _ _ hresult =>
        (inStep_effects reg span effect).bind fun _ _ heffects =>
          .pure (.fn hparams hresult heffects)
  | tuple elems =>
    rw [type]
    exact (inStep_types reg span elems).bind fun _ _ helems => .pure (.tuple helems)

theorem inStep_types (reg : Registry) (span : Span) (ts : List TypeExpr) :
    InStep ρ.Errors ρ.Resolvers (types reg span ts) (types reg span ts) (Forall₂ ρ.Types)
      ρ.Resolvers := by
  cases ts with
  | nil =>
    rw [types]
    exact .pure .nil
  | cons t ts =>
    rw [types]
    exact (inStep_type reg span t).bind fun _ _ ht =>
      (inStep_types reg span ts).bind fun _ _ hts => .pure (.cons ht hts)

end

end Resolve

theorem Infer.together_resolve {ρ : Matching} (hρ : ρ.Increasing) {Γ Γ' : Env} (reg : Registry)
    (written : Spanned TypeExpr) :
    Together ρ Γ Γ' (resolve reg written) (resolve reg written) ρ.Types := by
  refine .get_bind fun st st' hst => ?_
  have hstart : ρ.Resolvers { fresh := st.unifier.fresh, scope := .empty }
      { fresh := st'.unifier.fresh, scope := .empty } := ⟨hst.supplies, .nil, .nil, rfl⟩
  have hresolved := Resolve.inStep_type reg written.span written.node hstart
  dsimp only [EStateM.run]
  generalize Resolve.type reg written.span written.node
    { fresh := st.unifier.fresh, scope := .empty } = r at hresolved ⊢
  generalize Resolve.type reg written.span written.node
    { fresh := st'.unifier.fresh, scope := .empty } = r' at hresolved ⊢
  cases hresolved with
  | ok ht hr =>
    refine InStep.bind (Q := ρ.States Γ Γ') (.set ?_) fun _ _ _ => ?_
    · exact { hst with supplies := hr.supplies }
    refine (InStep.modify fun _ _ h => ?_).bind fun _ _ _ => .pure ht
    exact { h with names := h.names.merge hρ (Matching.names_scope hρ hr.types hr.effects) }
  | error he => exact (InStep.set (Q := fun _ _ => True) trivial).bind fun _ _ _ => .throw he

end RowTyping
