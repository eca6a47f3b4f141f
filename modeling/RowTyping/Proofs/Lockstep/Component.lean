import Mathlib
import RowTyping.Check.Component
import RowTyping.Proofs.Lockstep.Coverage
import RowTyping.Proofs.Lockstep.Infer
import RowTyping.Proofs.Lockstep.Supplies

/-!
# Components in lockstep

Two inferences of the same component that draw their variables from different blocks of ids come to
the same outcome (`Component.infer_independent_of_blocks`). The bodies are inferred in lockstep
(`Component.inStep_inferBodies`), and solving, generalisation and the check of coverage look at
variables only up to a matching that preserves the order of ids (`Component.conclude_lockstep`).
-/

namespace RowTyping

open List

/-! ## Definitions -/

namespace Infer

open Matching

variable {ρ : Matching} {hidden : List String} {reg : Registry} {Γ Γ' : Env}

/-- A definition is inferred alike in matching environments, unless it refers to hidden names. -/
theorem together_definition (hreg : ρ.Keeps reg) (henv : ρ.Envs hidden [] Γ Γ') {d : Definition}
    (h : d.freeNames.Disjoint hidden) :
    Together ρ Γ Γ' (definition reg d) (definition reg d) ρ.Results := by
  have h : (d.body.freeReferences (Pattern.boundNamesAll d.params)).Disjoint hidden :=
    fun name hname => h (Sorted.mem_ofList.mpr hname)
  rw [definition]
  split
  · rename_i hparams
    rw [isEmpty_iff.mp hparams] at h
    exact together_expr hreg d.body henv h
  · exact (together_function hreg henv h).bind fun _ _ h =>
      .pure ⟨.fn h.1 h.2.type h.2.effects, .closed []⟩

end Infer

/-! ## Obligations -/

namespace Matching

variable {ρ : Matching} {t t' : Ty}

theorem Types.headConstructor?_eq (h : ρ.Types t t') :
    t.headConstructor? = t'.headConstructor? := by
  cases h <;> rfl

theorem Types.isSome_headVar? (h : ρ.Types t t') : t.headVar?.isSome = t'.headVar?.isSome := by
  induction t generalizing t' with
  | app head args ih _ =>
    cases h with
    | app hhead _ =>
      rw [Ty.headVar?, Ty.headVar?]
      exact ih hhead
  | prim | var | named | fn | tuple =>
    cases h
    rfl

theorem Types.goal_eq (h : ρ.Types t t') (traits : Traits) (traitName : String) :
    traits.goal traitName t = traits.goal traitName t' := by
  rw [Traits.goal, Traits.goal, h.headConstructor?_eq, h.isSome_headVar?]

/-- Solving came to the same resolutions and left matching obligations. -/
structure Solutions (ρ : Matching) (solved solved' : Solved) : Prop where
  resolved : solved.resolved = solved'.resolved
  residual : Forall₂ ρ.Obligations solved.residual solved'.residual

theorem Solutions.keep {solved solved' : Solved} (h : ρ.Solutions solved solved')
    {ob ob' : Obligation} (hob : ρ.Obligations ob ob') :
    ρ.Solutions (solved.keep ob) (solved'.keep ob') := by
  have hany : solved.residual.any (·.toGiven = ob.toGiven) =
      solved'.residual.any (·.toGiven = ob'.toGiven) :=
    any_eq_of_forall₂ h.residual fun hother => by
      rw [decide_eq_decide]
      exact hother.toGiven.eq_iff hob.toGiven
  rw [Solved.keep, Solved.keep, hany]
  split
  · exact h
  · exact ⟨h.resolved, rel_append h.residual (.cons hob .nil)⟩

/-- Matching obligations are solved alike. -/
theorem solveAfter_lockstep (traits : Traits) {s s' : Subst}
    (hs : ρ.Valuations ρ s.valuation s'.valuation) {obs obs' : List Obligation}
    (hobs : Forall₂ ρ.Obligations obs obs') {solved solved' : Solved}
    (h : ρ.Solutions solved solved') :
    ExceptRel ρ.Errors ρ.Solutions (traits.solveAfter s solved obs)
      (traits.solveAfter s' solved' obs') := by
  induction hobs generalizing solved solved' with
  | nil => exact .ok h
  | @cons ob ob' _ _ hob _ ih =>
    have happly := hob.apply hs
    have hgoal := happly.type.goal_eq traits (ob.apply s).traitName
    rw [Traits.solveAfter, Traits.solveAfter, ← happly.traitName, ← hgoal]
    split
    · rename_i impl _
      refine ih ⟨?_, h.residual⟩
      rw [h.resolved, Obligation.resolveBy, Obligation.resolveBy, happly.traitName, happly.origin]
    · exact ih (h.keep happly)
    · rw [happly.origin]
      exact .error (.unresolvedTrait _ happly.type _)

theorem solve_lockstep (traits : Traits) {s s' : Subst}
    (hs : ρ.Valuations ρ s.valuation s'.valuation) {obs obs' : List Obligation}
    (hobs : Forall₂ ρ.Obligations obs obs') :
    ExceptRel ρ.Errors ρ.Solutions (traits.solve s obs) (traits.solve s' obs') :=
  solveAfter_lockstep traits hs hobs ⟨rfl, .nil⟩

end Matching

namespace Component

open Matching

variable {ρ : Matching} {reg : Registry} {Γ Γ' : Env} {hidden : List String} {t t' : Ty}
  {ms ms' : List Member}

/-! ## Bodies -/

/-- The same definition with a matching type, matching obligations and matching choices. -/
structure Members (ρ : Matching) (m m' : Member) : Prop where
  definition : m.definition = m'.definition
  type : ρ.Types m.type m'.type
  obligations : Forall₂ ρ.Obligations m.obligations m'.obligations
  pending : Forall₂ ρ.Choices m.pending m'.pending

/-- The same member is to blame for the same error. -/
structure Blames (ρ : Matching) (b b' : Blame) : Prop where
  member : b.member = b'.member
  error : ρ.Errors b.error b'.error

/-- The same definition with a matching type. -/
def Declared (ρ : Matching) (entry entry' : Definition × Ty) : Prop :=
  entry.1 = entry'.1 ∧ ρ.Types entry.2 entry'.2

theorem together_inferBody (hreg : ρ.Keeps reg) (henv : ρ.Envs hidden [] Γ Γ') {d : Definition}
    (hd : d.freeNames.Disjoint hidden) (ht : ρ.Types t t') :
    Infer.Together ρ Γ Γ' (inferBody reg d t) (inferBody reg d t') fun _ _ => True := by
  rw [inferBody, inferBody]
  refine (Infer.together_definition hreg henv hd).bind fun typed typed' htyped => ?_
  split
  · exact (Infer.together_unifyRows (.closed []) htyped.effects _).bind fun _ _ _ =>
      Infer.together_unify ht htyped.type _
  · exact Infer.together_unify ht htyped.type _

theorem together_takeMember (d : Definition) (ht : ρ.Types t t') :
    Infer.Together ρ Γ Γ' (takeMember d t) (takeMember d t') (Members ρ) :=
  .modifyGet fun _ _ h =>
    ⟨⟨rfl, ht, h.obligations, h.pending⟩, { h with obligations := .nil, pending := .nil }⟩

/-- Bodies are inferred in lockstep. -/
theorem inStep_inferBodies (hreg : ρ.Keeps reg) (henv : ρ.Envs hidden [] Γ Γ')
    {entries entries' : List (Definition × Ty)} (h : Forall₂ (Declared ρ) entries entries')
    (hentries : ∀ entry ∈ entries, entry.1.freeNames.Disjoint hidden) (k : Nat) :
    InStep (Blames ρ) (ρ.States Γ Γ') (inferBodies reg k entries) (inferBodies reg k entries')
      (Forall₂ (Members ρ)) (ρ.States Γ Γ') := by
  induction h generalizing k with
  | nil =>
    rw [inferBodies]
    exact .pure .nil
  | @cons entry entry' rest rest' hentry _ ih =>
    obtain ⟨d, t⟩ := entry
    obtain ⟨d', t'⟩ := entry'
    obtain ⟨rfl, ht⟩ := hentry
    rw [forall_mem_cons] at hentries
    rw [inferBodies, inferBodies]
    refine InStep.bind (R := Members ρ) (Q := ρ.States Γ Γ') ?_ fun m m' hm =>
      (ih hentries.2 (k + 1)).bind fun _ _ hms => .pure (.cons hm hms)
    intro st st' hst
    have hmember : Infer.Together ρ Γ Γ' (inferBody reg d t *> takeMember d t)
        (inferBody reg d t' *> takeMember d t') (Members ρ) :=
      (together_inferBody hreg henv hentries.1 ht).bind fun _ _ _ => together_takeMember d ht
    have hrun := hmember hst
    dsimp only [EStateM.run]
    generalize (inferBody reg d t *> takeMember d t) st = r at hrun ⊢
    generalize (inferBody reg d t' *> takeMember d t') st' = r' at hrun ⊢
    cases hrun with
    | ok hm hst₁ => exact .ok hm hst₁
    | error he => exact .error ⟨rfl, he⟩

/-- Members are bound to matching types in new scopes. -/
theorem exists_scopes {entries entries' : List (Definition × Ty)}
    (h : Forall₂ (Declared ρ) entries entries') {scope scope' : Dict String Scheme}
    (hscope : ρ.Scopes scope scope') :
    ∃ scope₁ scope₁', ρ.Scopes scope₁ scope₁' ∧
      entries.foldl (fun env (d, t) => env.bind d.name.node (.mono t)) (inScope Γ scope) =
        inScope Γ scope₁ ∧
      entries'.foldl (fun env (d, t) => env.bind d.name.node (.mono t)) (inScope Γ' scope') =
        inScope Γ' scope₁' := by
  induction h generalizing scope scope' with
  | nil => exact ⟨scope, scope', hscope, rfl, rfl⟩
  | @cons entry entry' _ _ hentry _ ih =>
    obtain ⟨d, t⟩ := entry
    obtain ⟨d', t'⟩ := entry'
    obtain ⟨rfl, ht⟩ := hentry
    exact ih (hscope.insert d.name.node (schemes_mono ht))

/-- The members of a component get matching types. -/
theorem inStep_bindMembers (henv : ρ.Envs hidden [] Γ Γ') {ds : List Definition}
    (hds : ∀ d ∈ ds, d.freeNames.Disjoint hidden) :
    InStep ρ.Errors (ρ.States Γ Γ') (bindMembers ds) (bindMembers ds)
      (fun entries entries' => Forall₂ (Declared ρ) entries entries' ∧
        ∀ entry ∈ entries, entry.1.freeNames.Disjoint hidden)
      fun st st' => ∃ Γ₁ Γ₁', ρ.Envs hidden [] Γ₁ Γ₁' ∧ ρ.States Γ₁ Γ₁' st st' := by
  refine (Infer.together_freshTypes ds).bind fun ts ts' hts => ?_
  have hmembers : Forall₂ (Declared ρ) (ds.zip ts) (ds.zip ts') :=
    forall₂_zip (forall₂_refl ds) hts.1
  refine InStep.bind (.modify fun st st' hst => ?_) fun _ _ _ =>
    .pure ⟨hmembers, fun entry hentry => hds _ (of_mem_zip hentry).1⟩
  obtain ⟨scope, scope', hscope, hΓ, hΓ'⟩ :=
    exists_scopes (Γ := Γ) hmembers (Dict.rel_empty (K := Eq))
  have hnames : ∀ name ∈ ([] : List String), (scope.get? name).isSome := by simp
  refine ⟨inScope Γ scope, inScope Γ' scope', henv.inScope hscope hnames,
    { hst with env := ?_, env' := ?_ }⟩
  · rw [← hΓ, ← hst.env]
    rfl
  · rw [← hΓ', ← hst.env']
    rfl

/-! ## Schemes -/

/-- Steps that match for matching members match for all of them. -/
theorem forEach_lockstep {α β : Type} {R : α → β → Prop} {f : Nat → Member → Except TypingError α}
    {g : Nat → Member → Except TypingError β}
    (hstep : ∀ k m m', Members ρ m m' → ExceptRel ρ.Errors R (f k m) (g k m'))
    (h : Forall₂ (Members ρ) ms ms') (k : Nat) :
    ExceptRel (Blames ρ) (Forall₂ R) (forEach f k ms) (forEach g k ms') := by
  induction h generalizing k with
  | nil => exact .ok .nil
  | @cons m m' _ _ hm _ ih =>
    have hfirst := hstep k m m' hm
    rw [forEach, forEach]
    generalize f k m = x, g k m' = y at hfirst
    cases hfirst with
    | ok hab => exact (ih (k + 1)).bind fun hrest => .ok (.cons hab hrest)
    | error he => exact .error ⟨rfl, he⟩

theorem solveAll_lockstep {s s' : Subst} (hs : ρ.Valuations ρ s.valuation s'.valuation)
    (h : Forall₂ (Members ρ) ms ms') :
    ExceptRel (Blames ρ) (Forall₂ ρ.Solutions) (solveAll reg s ms) (solveAll reg s' ms') :=
  forEach_lockstep (fun _ _ _ hm => solve_lockstep reg.traits hs hm.obligations) h 0

private theorem forall₂_eraseIdx {α β : Type} {R : α → β → Prop} {as : List α} {bs : List β}
    (h : Forall₂ R as bs) (k : Nat) : Forall₂ R (as.eraseIdx k) (bs.eraseIdx k) := by
  induction h generalizing k with
  | nil => exact .nil
  | cons hab hrest ih =>
    cases k with
    | zero => exact hrest
    | succ k => exact .cons hab (ih k)

private theorem forall₂_getD {α β : Type} {R : α → β → Prop} {as : List (List α)}
    {bs : List (List β)} (h : Forall₂ (Forall₂ R) as bs) (k : Nat) :
    Forall₂ R (as.getD k []) (bs.getD k []) := by
  induction h generalizing k with
  | nil => exact .nil
  | cons hab _ ih =>
    cases k with
    | zero => exact hab
    | succ k => exact ih k

theorem relevant_lockstep {residual residual' : List (List Obligation)}
    (h : Forall₂ (Forall₂ ρ.Obligations) residual residual') (k : Nat) (ht : ρ.Types t t') :
    Forall₂ ρ.Obligations (relevant residual k t) (relevant residual' k t') := by
  refine rel_append (forall₂_getD h k) (forall₂_filter (rel_flatten (forall₂_eraseIdx h k))
    fun hob => hob.type.all_typeVars fun hv => ?_)
  rw [contains_eq_mem, contains_eq_mem, decide_eq_decide]
  exact ht.mem_typeVars_iff hv

/-- The same names with matching schemes, from the same places. -/
def Schemes (ρ : Matching) (entry entry' : String × Scheme × Span) : Prop :=
  entry.1 = entry'.1 ∧ ρ.Schemes entry.2.1 entry'.2.1 ∧ entry.2.2 = entry'.2.2

theorem generalizeAll_lockstep (hρ : ρ.Increasing) {st st' : InferState}
    (hst : ρ.States Γ Γ' st st') {residual residual' : List (List Obligation)}
    (hresidual : Forall₂ (Forall₂ ρ.Obligations) residual residual')
    (h : Forall₂ (Members ρ) ms ms') :
    ExceptRel (Blames ρ) (Forall₂ (Schemes ρ)) (generalizeAll st residual ms)
      (generalizeAll st' residual' ms') := by
  refine forEach_lockstep (fun k m m' hm => ?_) h 0
  have hobs := relevant_lockstep hresidual k (hst.apply hm.type)
  have hfixed : ρ.Fixed {} {} := ⟨fun _ => by simp, fun _ => by simp⟩
  have hgen := generalize_lockstep hρ hm.type hobs hst.valuations hfixed hst.names
  refine hgen.bind fun h => .ok ?_
  exact ⟨by rw [hm.definition], h.1, by rw [hm.definition]⟩

/-! ## Outcomes -/

theorem warning?_eq (hreg : ρ.Keeps reg) {s s' : Subst}
    (hs : ρ.Valuations ρ s.valuation s'.valuation) {cases cases' : PendingCases}
    (h : ρ.Choices cases cases') (binding : String) :
    cases.warning? reg s binding = cases'.warning? reg s' binding := by
  have hscrutinee : ρ.Types (s.apply cases.scrutinee) (s'.apply cases'.scrutinee) :=
    h.scrutinee.under hs
  rw [PendingCases.warning?, PendingCases.warning?, hscrutinee.missingPatterns_eq hreg, h.patterns,
    h.span]

/-- The outcomes fail for the same names with the same reports, warn of the same choices, are
resolved alike, and have matching schemes. -/
structure Outcomes (ρ : Matching) (outcome outcome' : Outcome) : Prop where
  schemes : Forall₂ (Schemes ρ) outcome.schemes outcome'.schemes
  failures : Forall₂ (fun entry entry' => entry.1 = entry'.1 ∧ ρ.Errors entry.2 entry'.2)
    outcome.failures outcome'.failures
  warnings : outcome.warnings = outcome'.warnings
  resolutions : outcome.resolutions = outcome'.resolutions

theorem conclude_lockstep (hreg : ρ.Keeps reg) {st st' : InferState} (hst : ρ.States Γ Γ' st st')
    (h : Forall₂ (Members ρ) ms ms') (events events' : BindingEvents) :
    ExceptRel (Blames ρ) (Outcomes ρ) (conclude reg st events ms)
      (conclude reg st' events' ms') := by
  rw [conclude, conclude]
  refine (solveAll_lockstep hst.valuations h).bind fun {solved solved'} hsolved => ?_
  have hresidual : Forall₂ (Forall₂ ρ.Obligations) (solved.map (·.residual))
      (solved'.map (·.residual)) := by
    rw [forall₂_map_left_iff, forall₂_map_right_iff]
    exact hsolved.imp fun _ _ h => h.residual
  refine (generalizeAll_lockstep hreg.toIncreasing hst hresidual h).bind fun hschemes => .ok ?_
  refine ⟨hschemes, .nil, ?_, ?_⟩
  · refine flatMap_eq_of_forall₂ h fun m _ {m'} hm => ?_
    rw [hm.definition]
    exact filterMap_eq_of_forall₂ hm.pending
      fun _ _ hcases => warning?_eq hreg hst.valuations hcases _
  · refine flatMap_eq_of_forall₂ (forall₂_zip h hsolved) ?_
    rintro ⟨m, solved⟩ _ ⟨m', solved'⟩ ⟨hm, hsolved⟩
    dsimp only at hm hsolved ⊢
    rw [hm.definition, hsolved.resolved]

theorem failure_lockstep (ds : List Definition) (events events' : BindingEvents) {b b' : Blame}
    (h : Blames ρ b b') : Outcomes ρ (failure ds events b) (failure ds events' b') where
  schemes := .nil
  failures := by
    rw [failure, failure, h.member]
    exact .cons ⟨rfl, h.error⟩ (forall₂_same.mpr fun _ _ => ⟨rfl, .same _⟩)
  warnings := rfl
  resolutions := rfl

theorem states_start {f f' : Fresh} (h : ρ.Supplies f f') :
    ρ.States Γ Γ' (.start f Γ) (.start f' Γ') where
  supplies := h
  substs := substs_empty
  sameSize := Subst.sameSize_empty
  unmatched := fun _ => rfl
  obligations := .nil
  names := names_empty
  pending := .nil
  env := rfl
  env' := rfl

/-- Supplies that hand out matching variables lead to the same outcome. -/
theorem infer_lockstep (hreg : ρ.Keeps reg) (henv : ρ.Envs hidden [] Γ Γ') {pool pool' : Pool}
    (hpools : ρ.Supplies pool.ready pool'.ready) (ds : List Definition)
    (hds : ∀ d ∈ ds, d.freeNames.Disjoint hidden) :
    Outcomes ρ (infer reg Γ pool ds).1 (infer reg Γ' pool' ds).1 := by
  have hbind := inStep_bindMembers henv hds (states_start hpools)
  rw [infer, infer]
  generalize hmembers : bindMembers ds (.start pool.ready Γ) = r at hbind
  generalize hmembers' : bindMembers ds (.start pool'.ready Γ') = r' at hbind
  rw [Pool.ready] at hmembers hmembers'
  cases hbind with
  | error he =>
    simp only [EStateM.run, hmembers, hmembers']
    exact failure_lockstep ds _ _ ⟨rfl, he⟩
  | @ok members members' st st' h hst =>
    obtain ⟨Γ₁, Γ₁', henv₁, hst₁⟩ := hst
    have hrun := inStep_inferBodies hreg henv₁ h.1 h.2 0 hst₁
    generalize hbodies : inferBodies reg 0 members st = r at hrun
    generalize hbodies' : inferBodies reg 0 members' st' = r' at hrun
    cases hrun with
    | error hb =>
      simp only [EStateM.run, hmembers, hmembers', hbodies, hbodies']
      exact failure_lockstep ds _ _ hb
    | @ok ms ms' st₂ st₂' hms hst₂ =>
      simp only [EStateM.run, hmembers, hmembers', hbodies, hbodies']
      have hconclude := conclude_lockstep hreg hst₂ hms
        (st₂.bindingEvents (", ".intercalate (ds.map (·.name.node))))
        (st₂'.bindingEvents (", ".intercalate (ds.map (·.name.node))))
      generalize conclude reg st₂ _ ms = c at hconclude ⊢
      generalize conclude reg st₂' _ ms' = c' at hconclude ⊢
      cases hconclude with
      | ok h => exact h
      | error hb => exact failure_lockstep ds _ _ hb

/-- The outcome of a component does not depend on the blocks of ids that its supply receives. If the
blocks to come of two pools lie above each other and above all that environment and registry
mention, the same names fail with the same reports, resolutions and warnings are the same, and the
schemes differ by a one-to-one renaming that preserves the order of ids and leaves alone what was
there before. -/
theorem infer_independent_of_blocks (reg : Registry) (env : Env) (ds : List Definition)
    {pool pool' : Pool} (hpool : pool.Spaced) (hpool' : pool'.Spaced)
    (habove : ∀ x ∈ env.mentioned ++ reg.mentioned, pool.Above x ∧ pool'.Above x) :
    let outcome := (infer reg env pool ds).1
    let outcome' := (infer reg env pool' ds).1
    outcome.failures.map (fun (name, e) => (name, e.toDiagnostic name)) =
        outcome'.failures.map (fun (name, e) => (name, e.toDiagnostic name)) ∧
      outcome.resolutions = outcome'.resolutions ∧ outcome.warnings = outcome'.warnings ∧
      ∃ ρ : Matching, ρ.Increasing ∧ (∀ x ∈ env.mentioned ++ reg.mentioned, ρ.Vars x x) ∧
        Forall₂ (fun entry entry' => entry.1 = entry'.1 ∧ ρ.Schemes entry.2.1 entry'.2.1 ∧
          entry.2.2 = entry'.2.2) outcome.schemes outcome'.schemes := by
  have hf := Fresh.pooled_ready hpool
  have hf' := Fresh.pooled_ready hpool'
  have hknown : ∀ x, x ∈ env.mentioned ++ reg.mentioned → pool.ready.Above x ∧
      pool'.ready.Above x :=
    fun x hx => ⟨hpool.above_ready (habove x hx).1, hpool'.above_ready (habove x hx).2⟩
  have hρ := increasing_ofSupplies hf hf' hknown
  have hself := fun x hx => vars_ofSupplies hf hf' hknown (x := x) hx
  have hreg := keeps_of_mentioned hρ fun x hx => hself x (mem_append_right _ hx)
  have henv := envs_refl fun x hx => hself x (mem_append_left _ hx)
  have houtcome := infer_lockstep hreg henv (supplies_ofSupplies hf hf' hknown) ds
    fun d _ => disjoint_nil_right d.freeNames
  refine ⟨?_, houtcome.resolutions, houtcome.warnings, _, hρ, hself, houtcome.schemes⟩
  rw [← forall₂_eq_eq_eq, forall₂_map_left_iff, forall₂_map_right_iff]
  refine houtcome.failures.imp ?_
  rintro ⟨name, e⟩ ⟨_, e'⟩ ⟨rfl, he⟩
  exact congrArg (Prod.mk name) (he.toDiagnostic_eq name)

/-- A data type `Box` with a parameter. -/
private def boxes : Registry where
  dataTypes := DataTypes.insert {} {
    name := "Box"
    params := [(⟨0⟩, "a")]
    constructors := [{ name := "Box", fields := [.var ⟨0⟩] }] }

/-- An environment with the constructor `Box`. -/
private def boxing : Env where
  globals := Dict.empty.insert "Box" {
    typeVars := [⟨0⟩]
    type := .fn [.var ⟨0⟩] (.named "Box" [.var ⟨0⟩]) .pure }

/-- A function `name` of `f` and `x` with the given body. -/
private def operation (name : String) (body : Expr) : Definition where
  name := name
  params := [.var .synthetic "f", .var .synthetic "x"]
  body

/-- A call of a function by name. -/
private def callOf (name : String) (args : List Expr) : Expr :=
  .call .synthetic (.var .synthetic name) args

/-- Two functions that call each other: `ping f x = f (Box (pong f x))` and `pong f x = ping f
x`. -/
private def exchange : List Definition :=
  let args := [.var .synthetic "f", .var .synthetic "x"]
  [operation "ping" (callOf "f" [callOf "Box" [callOf "pong" args]]),
    operation "pong" (callOf "ping" args)]

/-- The second block of a pool that hands out one block after the other. -/
private def dense : Pool where
  types := { taken := 1 }
  effects := { taken := 1 }

/-- A pool that leaves out ids between its blocks. -/
private def sparse : Pool where
  types := { start := fun k => 4096 * k, taken := 3 }
  effects := { start := fun k => 2048 * k + 7, taken := 2 }

private theorem spaced_dense : dense.Spaced :=
  ⟨fun k _ => Nat.le_of_eq (Nat.mul_succ blockSize k).symm,
    fun k _ => Nat.le_of_eq (Nat.mul_succ blockSize k).symm⟩

private theorem spaced_sparse : sparse.Spaced := by
  constructor <;> intro k _ <;> simp only [sparse, blockSize] <;> omega

set_option maxRecDepth 100000 in
private theorem typeVars_dense :
    (infer boxes boxing dense exchange).1.schemes.flatMap (·.2.1.typeVars) =
      [⟨1033⟩, ⟨1035⟩, ⟨1033⟩, ⟨1035⟩] := by cbv

set_option maxRecDepth 100000 in
private theorem typeVars_sparse :
    (infer boxes boxing sparse exchange).1.schemes.flatMap (·.2.1.typeVars) =
      [⟨12297⟩, ⟨12299⟩, ⟨12297⟩, ⟨12299⟩] := by cbv

theorem infer_independent_of_blocks_exchange :
    dense.Spaced ∧ sparse.Spaced ∧
      (∀ x ∈ boxing.mentioned ++ boxes.mentioned, dense.Above x ∧ sparse.Above x) ∧
      (infer boxes boxing dense exchange).1.schemes ≠
        (infer boxes boxing sparse exchange).1.schemes ∧
      let outcome := (infer boxes boxing dense exchange).1
      let outcome' := (infer boxes boxing sparse exchange).1
      outcome.failures.map (fun (name, e) => (name, e.toDiagnostic name)) =
          outcome'.failures.map (fun (name, e) => (name, e.toDiagnostic name)) ∧
        outcome.resolutions = outcome'.resolutions ∧ outcome.warnings = outcome'.warnings ∧
        ∃ ρ : Matching, ρ.Increasing ∧ (∀ x ∈ boxing.mentioned ++ boxes.mentioned, ρ.Vars x x) ∧
          Forall₂ (fun entry entry' => entry.1 = entry'.1 ∧ ρ.Schemes entry.2.1 entry'.2.1 ∧
            entry.2.2 = entry'.2.2) outcome.schemes outcome'.schemes := by
  have habove : ∀ x ∈ boxing.mentioned ++ boxes.mentioned, dense.Above x ∧ sparse.Above x := by
    decide
  refine ⟨spaced_dense, spaced_sparse, habove, fun h => ?_,
    infer_independent_of_blocks boxes boxing exchange spaced_dense spaced_sparse habove⟩
  have hvars := typeVars_dense
  rw [h, typeVars_sparse] at hvars
  simp at hvars

end Component

end RowTyping
