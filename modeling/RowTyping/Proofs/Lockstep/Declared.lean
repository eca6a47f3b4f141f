import RowTyping.Proofs.Lockstep.Component

/-!
# Declared definitions in lockstep

A definition that fits its declared scheme with one supply fits it with any other
(`DeclaredTask.found_of_fits`): its body is inferred in lockstep, and whether the declared variables
have stayed apart is seen from any matching.
-/

namespace RowTyping

open List

namespace Infer

open Matching

variable {ρ : Matching} {hidden : List String} {reg : Registry} {Γ Γ' : Env}

theorem together_unifyEach (origin : Origin) {ts ts' us us' : List Ty}
    (hts : Forall₂ ρ.Types ts ts') (hus : Forall₂ ρ.Types us us') :
    Together ρ Γ Γ' (unifyEach origin ts us) (unifyEach origin ts' us') fun _ _ => True := by
  induction hts generalizing us us' with
  | nil =>
    rw [unifyEach, unifyEach]
    · exact .pure trivial
    all_goals simp
  | cons ht _ ih =>
    cases hus with
    | nil => exact .pure trivial
    | cons hu hus => exact (together_unify ht hu origin).bind fun _ _ _ => ih hus

/-- A definition fits matching declared types alike. -/
theorem together_fitDeclared (hreg : ρ.Keeps reg) (henv : ρ.Envs hidden [] Γ Γ') {d : Definition}
    (hd : d.freeNames.Disjoint hidden) {t t' : Ty} (ht : ρ.Types t t') :
    Together ρ Γ Γ' (fitDeclared reg d t) (fitDeclared reg d t') fun _ _ => True := by
  have hd : (d.body.freeReferences (Pattern.boundNamesAll d.params)).Disjoint hidden :=
    fun name hname => hd (Sorted.mem_ofList.mpr hname)
  unfold fitDeclared
  split
  · rename_i hparams
    rw [List.isEmpty_iff.mp hparams] at hd
    exact (together_expr hreg d.body henv hd).bind fun _ _ h =>
      (together_unify ht h.type _).bind fun _ _ _ => together_unifyRows (.closed []) h.effects _
  · cases ht with
    | fn hparams hresult heffects =>
      simp only [hparams.length_eq]
      split
      · exact .throw (.same _)
      · exact (together_function hreg henv hd).bind fun _ _ h =>
          (together_unifyEach _ hparams h.1).bind fun _ _ _ =>
            (together_unify hresult h.2.type _).bind
              fun _ _ _ => together_subeffect h.2.effects heffects _
    | _ => exact .throw (.same _)

private theorem any_nodup_mapM {α : Type} [DecidableEq α] {R : α → α → Prop}
    (hR : Relator.BiUnique R)
    {f g : α → Option α} {as : List α} (h : ∀ a ∈ as, Option.Rel R (f a) (g a)) :
    (as.mapM f).any (·.Nodup) = (as.mapM g).any (·.Nodup) := by
  have hrel : Option.Rel (Forall₂ R) (as.mapM f) (as.mapM g) := by
    induction as with
    | nil => exact .some .nil
    | cons a as ih =>
      rw [forall_mem_cons] at h
      rw [mapM_cons, mapM_cons]
      have ha := h.1
      have has := ih h.2
      generalize f a = o at ha ⊢
      generalize g a = o' at ha ⊢
      generalize as.mapM f = os at has ⊢
      generalize as.mapM g = os' at has ⊢
      cases ha with
      | none => exact .none
      | some ha =>
        cases has with
        | none => exact .none
        | some has => exact .some (.cons ha has)
  generalize as.mapM f = os at hrel ⊢
  generalize as.mapM g = os' at hrel ⊢
  cases hrel with
  | none => rfl
  | some h => exact decide_eq_decide.mpr (rel_nodup hR h)

/-- Whether a scheme of matching variables has stayed rigid is the same under matching
substitutions. -/
theorem isRigid_lockstep {s s' : Subst} (hs : ρ.Valuations ρ s.valuation s'.valuation) {σ : Scheme}
    (hσ : ρ.Schemes σ σ) : isRigid s σ = isRigid s' σ := by
  rw [isRigid, isRigid]
  congr 1
  · refine any_nodup_mapM ρ.biUnique_types fun v hv => ?_
    have hvar : ρ.Types (s.apply (.var v)) (s'.apply (.var v)) :=
      (Types.var (forall₂_same.mp hσ.typeVars v hv)).under hs
    generalize s.apply (.var v) = t at hvar
    generalize s'.apply (.var v) = t' at hvar
    cases hvar with
    | var h => exact .some h
    | _ => exact .none
  · refine any_nodup_mapM ρ.biUnique_effects fun e he => ?_
    have hrow : ρ.Rows (s.applyRow (.ofVar e)) (s'.applyRow (.ofVar e)) :=
      (Rows.extended [] (forall₂_same.mp hσ.effectVars e he)).under hs
    generalize s.applyRow (.ofVar e) = r at hrow
    generalize s'.applyRow (.ofVar e) = r' at hrow
    cases hrow with
    | closed labels => cases labels <;> exact .none
    | extended labels h =>
      cases labels with
      | nil => exact .some h
      | cons => exact .none

/-- A definition that fits its signature without obligations passes the check if the signature has
stayed rigid. -/
theorem checkDeclared_of_fit {d : Definition} {σ : Scheme} {st st' : InferState}
    (hfit : fitDeclared reg d σ.type st = .ok () st') (hrigid : isRigid st'.subst σ)
    (hobs : st'.obligations = [])
    (allowed : List Given) : checkDeclared reg d σ allowed st = .ok [] st' := by
  have hpasses : requireRigid σ d.span st' = .ok () st' := by
    refine (bind_of_ok rfl).trans ?_
    simp only [hrigid, Bool.not_true, Bool.false_eq_true, if_false]
    rfl
  rw [checkDeclared, bind_of_ok hfit, bind_of_ok hpasses]
  obtain ⟨⟩ := st'
  cases hobs
  rfl

end Infer

/-- What an outcome adds to a report apart from resolutions and traces. -/
def Outcome.found (o : Outcome) :
    List (String × Scheme × Span) × List (String × TypingError) × List Diagnostic :=
  (o.schemes, o.failures, o.warnings)

namespace DeclaredTask

/-- Whether the definition fits the declared scheme without obligations or warnings. -/
def fits (reg : Registry) (env : Env) (pool : Pool) (task : DeclaredTask) : Bool :=
  match Infer.fitDeclared reg task.definition task.scheme.type (.start pool.ready env) with
  | .ok _ st => Infer.isRigid st.subst task.scheme && st.obligations.isEmpty &&
      (st.pending.filterMap (·.warning? reg st.subst task.label)).isEmpty
  | .error _ _ => false

/-- A definition that fits its declared scheme with one supply passes the check with any other that
hands out matching variables, in any environment where the names it refers to are used alike. -/
theorem found_of_fits {ρ : Matching} {reg : Registry} {Γ Γ' : Env} {hidden : List String}
    {pool pool' : Pool} {task : DeclaredTask} (hreg : ρ.Keeps reg) (henv : ρ.Envs hidden [] Γ Γ')
    (hd : task.definition.freeNames.Disjoint hidden) (hpools : ρ.Supplies pool.ready pool'.ready)
    (hσ : ρ.Schemes task.scheme task.scheme) (h : task.fits reg Γ pool = true) :
    (task.check reg Γ' pool').1.found =
      (if task.isReported then [(task.label, task.scheme, task.definition.span)] else [], [],
        []) := by
  have hfit := Infer.together_fitDeclared hreg henv hd hσ.type (Component.states_start hpools)
  rw [fits] at h
  generalize Infer.fitDeclared reg task.definition task.scheme.type (.start pool.ready Γ) =
    r at hfit h
  generalize hrun : Infer.fitDeclared reg task.definition task.scheme.type (.start pool'.ready Γ') =
    r' at hfit
  cases hfit with
  | error => cases h
  | @ok _ _ st st' _ hst =>
    simp only [Bool.and_eq_true, List.isEmpty_iff] at h
    obtain ⟨⟨hrigid, hobs⟩, hwarnings⟩ := h
    rw [Infer.isRigid_lockstep hst.valuations hσ] at hrigid
    have hobs' : st'.obligations = [] := List.forall₂_nil_left_iff.mp (hobs ▸ hst.obligations)
    have hcheck := Infer.checkDeclared_of_fit hrun hrigid hobs' task.allowed
    rw [filterMap_eq_of_forall₂ hst.pending fun _ _ hcases =>
      Component.warning?_eq hreg hst.valuations hcases task.label] at hwarnings
    rw [Pool.ready] at hcheck
    simp only [check, EStateM.run, hcheck, Outcome.found, hwarnings]

end DeclaredTask

end RowTyping
