import RowTyping.Proofs.Check.Recorded

/-!
# Global names at every point of a check

A check passes through a list of states: `Module.declarationStates` while the module is declared and
`Module.inferenceStates` after that until the end, with every state in between in which a global
name may have got its type. The steps are those of the check, so the last states are what it ends
with. Along the whole list a global name that has a type keeps it, and from the end of the
declarations on a constructor means the same in patterns and in expressions.
-/

namespace RowTyping

open List

/-! ## Trails -/

/-- The states of a pass over a list: before each step, those inside of it, and the last one. -/
def trail {α β : Type} (f : β → α → β) (inside : β → α → List β) : β → List α → List β
  | b, [] => [b]
  | b, a :: as => b :: (inside b a ++ trail f inside (f b a) as)

/-- The states between two others are in order with them and with each other. -/
structure Climbs {β : Type} (R : β → β → Prop) (b : β) (states : List β) (b' : β) : Prop where
  start : ∀ s ∈ states, R b s
  stop : ∀ s ∈ states, R s b'
  pairwise : states.Pairwise R
  ends : R b b'

section Climbs

variable {α β : Type} {R : β → β → Prop} {b b' b'' : β} {states states' : List β}

theorem Climbs.nil (h : R b b') : Climbs R b [] b' :=
  ⟨nofun, nofun, .nil, h⟩

theorem Climbs.map {γ : Type} {g : β → γ} {S : γ → γ → Prop}
    (h : Climbs (fun b b' => S (g b) (g b')) b states b') :
    Climbs S (g b) (states.map g) (g b') where
  start := forall_mem_map.mpr h.start
  stop := forall_mem_map.mpr h.stop
  pairwise := pairwise_map.mpr h.pairwise
  ends := h.ends

variable [IsPreorder β R]

theorem Climbs.singleton (h : R b b') : Climbs R b [b] b' :=
  ⟨forall_mem_singleton.mpr (refl_of R b), forall_mem_singleton.mpr h,
    pairwise_singleton R b, h⟩

theorem Climbs.append (h : Climbs R b states b') (h' : Climbs R b' states' b'') :
    Climbs R b (states ++ states') b'' where
  start s hs := (mem_append.mp hs).elim (h.start s) fun hs => trans_of R h.ends (h'.start s hs)
  stop s hs := (mem_append.mp hs).elim (fun hs => trans_of R (h.stop s hs) h'.ends) (h'.stop s)
  pairwise := pairwise_append.mpr
    ⟨h.pairwise, h'.pairwise, fun s hs s' hs' => trans_of R (h.stop s hs) (h'.start s' hs')⟩
  ends := trans_of R h.ends h'.ends

theorem Climbs.after (h : R b b') (h' : Climbs R b' states b'') : Climbs R b states b'' :=
  (Climbs.nil h).append h'

theorem Climbs.before (h : Climbs R b states b') (h' : R b' b'') : Climbs R b states b'' where
  start := h.start
  stop s hs := trans_of R (h.stop s hs) h'
  pairwise := h.pairwise
  ends := trans_of R h.ends h'

/-- A pass climbs if each of its steps does, where a step may rely on what those before it kept. -/
theorem climbs_trail {P : β → List α → Prop} {f : β → α → β} {inside : β → α → List β}
    (hstep : ∀ b a as, P b (a :: as) → Climbs R b (inside b a) (f b a) ∧ P (f b a) as)
    {as : List α} (h : P b as) : Climbs R b (trail f inside b as) (as.foldl f b) := by
  induction as generalizing b with
  | nil => exact .singleton (refl_of R b)
  | cons a as ih =>
    obtain ⟨hinside, hrest⟩ := hstep b a as h
    exact (Climbs.singleton (refl_of R b)).append (hinside.append (ih hrest))

omit [IsPreorder β R] in
theorem mem_trail_start (f : β → α → β) (inside : β → α → List β) (b : β) (as : List α) :
    b ∈ trail f inside b as := by
  cases as <;> exact .head _

omit [IsPreorder β R] in
theorem getLast?_trail {f : β → α → β} {inside : β → α → List β} (b : β) (as : List α) :
    (trail f inside b as).getLast? = some (as.foldl f b) := by
  induction as generalizing b with
  | nil => rfl
  | cons a as ih => simp [trail, ih, getLast?_cons, getLast?_append]

end Climbs

namespace Checker

variable {c c' : Checker}

/-! ## The states of a check -/

/-- The states in which constructors of a data type get their types as values. -/
def dataStates (c : Checker) (entry : DataDecl × DataType) : List Checker :=
  let (constructors, c) := c.declareConstructors entry.2 [] entry.1.variants
  trail (bindConstructor { entry.2 with constructors }) (fun _ _ => []) c constructors

/-- The states in which operations of an effect get their types. -/
def effectStates (c : Checker) (d : EffectDecl) : List Checker :=
  if c.registry.hasEffect d.name.node then []
  else
    trail (declareOperation d.name.node) (fun _ _ => [])
      { c with registry := c.registry.insertEffect d.name.node } d.operations

/-- The states in which operations of a trait get their types. -/
def traitStates (traits : List String) (c : Checker) (d : TraitDecl) : List Checker :=
  if (c.registry.traits.get? d.name.node).isSome || 1 < d.paramArities.length then []
  else
    let (param, c) := c.freshTypeVar
    (trail (declareMethod traits d param) (fun _ _ => []) ([], c) d.methods).map (·.2)

/-- The states in which inferred definitions get their types. -/
def outcomeStates (isInferred : Bool) (c : Checker) (o : Outcome) : List Checker :=
  trail (absorbScheme isInferred) (fun _ _ => []) c o.schemes

/-- The states of a wave. -/
def waveStates (c : Checker) (wave : List (List Definition)) : List Checker :=
  let (runnable, c) := c.runnableComponents wave
  let (outcomes, pool) := runAll (Component.infer c.registry c.env) c.fresh.pool runnable
  trail (absorb true) (outcomeStates true) (c.setPool pool) outcomes

/-- The states in which definitions are checked against their declared schemes. -/
def taskStates (c : Checker) : List Checker :=
  let (runnable, c) := c.runnableTasks c.declared
  let (outcomes, pool) := runAll (DeclaredTask.check c.registry c.env) c.fresh.pool runnable
  trail (absorb false) (outcomeStates false) (c.setPool pool) outcomes

end Checker

open Checker in
/-- The states that a check passes through while it declares the module. -/
def Module.declarationStates (m : Module) : List Checker :=
  let (entries, named) := declareTypeNames {} m.allDataDecls
  let typed := afterTypes m
  let effected := m.allEffectDecls.foldl declareEffect typed
  let traits := m.traitDecls.map (·.name.node)
  {} :: (trail declareData dataStates named entries ++
    trail declareEffect effectStates typed m.allEffectDecls ++
    trail (declareTrait traits) (traitStates traits) effected m.traitDecls ++
    trail declareImpl (fun _ _ => [])
      (m.traitDecls.foldl (declareTrait traits) effected) m.implDecls ++
    trail declareDefinition (fun _ _ => []) (afterImpls m) m.definitions)

open Checker in
/-- The states that a check passes through from the end of the declarations on. -/
def Module.inferenceStates (m : Module) (trace : Bool) : List Checker :=
  let c := (declareModule {} m).setTracing trace
  trail inferWave waveStates c (wavesOf c.inferred) ++ taskStates c.inferComponents

namespace Checker

variable {c c' : Checker}

/-! ## Steps that keep global names -/

/-- A global name that has a type keeps it. -/
def KeepsGlobals (c c' : Checker) : Prop :=
  ∀ ⦃name σ⦄, c.env.globals.get? name = some σ → c'.env.globals.get? name = some σ

instance : IsPreorder Checker KeepsGlobals where
  refl _ _ _ h := h
  trans _ _ _ h h' _ _ hσ := h' (h hσ)

theorem keepsGlobals_of_env (h : c'.env = c.env) : KeepsGlobals c c' := by
  intro name σ hσ
  rwa [h]

theorem keepsGlobals_bindGlobal {name : String} (h : ¬ c.env.hasGlobal name = true) (σ : Scheme) :
    KeepsGlobals c (c.bindGlobal name σ) := by
  intro n τ hτ
  have hne : n ≠ name := by
    rintro rfl
    exact h (Option.isSome_iff_exists.mpr ⟨τ, hτ⟩)
  exact (Dict.get?_insert _ _ _ _).trans ((if_neg hne).trans hτ)

theorem keepsGlobals_bindConstructor (type : DataType) (c : Checker) (con : Constructor) :
    KeepsGlobals c (bindConstructor type c con) := by
  rw [bindConstructor]
  split
  · exact keepsGlobals_of_env rfl
  · exact keepsGlobals_bindGlobal ‹_› _

theorem keepsGlobals_declareOperation (effect : String) (c : Checker) (o : OperationDecl) :
    KeepsGlobals c (declareOperation effect c o) := by
  have hact : Resolve.Stepwise (operationType c.registry effect o) :=
    (Resolve.Stepwise.types _).bind fun _ => (Resolve.Stepwise.type _).bind fun _ => .pure _
  rw [declareOperation]
  rcases resolve_cases hact c .empty with
    ⟨e, c₁, hrun, hrejects⟩ | ⟨t, r, -, -, hrun⟩
  · simp only [hrun]
    exact keepsGlobals_of_env (hrejects _).env
  · simp only [hrun]
    split
    · exact keepsGlobals_of_env rfl
    · exact keepsGlobals_bindGlobal ‹_› _

theorem keepsGlobals_declareMethod (traits : List String) (d : TraitDecl) (param : TypeVar)
    (state : List Method × Checker) (o : MethodDecl) :
    KeepsGlobals state.2 (declareMethod traits d param state o).2 := by
  obtain ⟨methods, c⟩ := state
  rcases declareMethod_cases traits d param methods c o with
    ⟨c', heq, hrejects⟩ | ⟨_, σ, _, -, hnew, -, heq⟩
  · rw [heq]
    exact keepsGlobals_of_env hrejects.env
  · rw [heq]
    exact keepsGlobals_bindGlobal (Bool.not_eq_true _ ▸ hnew) σ

theorem env_declareImplMethod (block : ImplDecl) (t : Trait) (head : Ty)
    (state : List String × Checker)
    (d : Definition) : (declareImplMethod block t head state d).2.env = state.2.env := by
  obtain ⟨provided, c⟩ := state
  rcases declareImplMethod_cases block t head provided c d with ⟨_, _, heq, hrejects⟩ |
    ⟨_, -, -, heq⟩
  · rw [heq]
    exact hrejects.env
  · rw [heq]

theorem env_declareImpl (c : Checker) (block : ImplDecl) : (c.declareImpl block).env = c.env := by
  rcases declareImpl_cases c block with hrejects | ⟨t, head, -, -, -, heq⟩
  · exact hrejects.env
  · have hmethods := foldl_induction (P := fun state : List String × Checker => state.2.env = c.env)
      (f := declareImplMethod block t head) (l := block.methods) (b := ([], c)) rfl
      fun state hstate d _ => (env_declareImplMethod block t head state d).trans hstate
    rw [heq, declareImplOf]
    exact (requireMethods_idles block _ t.methods _).env.trans hmethods

theorem keepsGlobals_declareDefinition (c : Checker) (d : Definition) :
    KeepsGlobals c (c.declareDefinition d) := by
  have hdeclares := declares_declareDefinition c d
  generalize c.declareDefinition d = c' at hdeclares
  cases hdeclares with
  | duplicate _ hidles => exact keepsGlobals_of_env hidles.env
  | waits => exact keepsGlobals_of_env rfl
  | failed _ _ hidles => exact keepsGlobals_of_env hidles.env
  | signed _ _ hunknown => exact keepsGlobals_bindGlobal (Bool.not_eq_true _ ▸ hunknown) _

/-! ## Declarations -/

/-- A pass whose steps keep global names climbs. -/
theorem climbs_pass {α : Type} {f : Checker → α → Checker} {inside : Checker → α → List Checker}
    (h : ∀ c a, Climbs KeepsGlobals c (inside c a) (f c a)) (c : Checker) (as : List α) :
    Climbs KeepsGlobals c (trail f inside c as) (as.foldl f c) :=
  climbs_trail (P := fun _ _ => True) (fun c a _ _ => ⟨h c a, trivial⟩) trivial

theorem climbs_steps {α : Type} {f : Checker → α → Checker} (h : ∀ c a, KeepsGlobals c (f c a))
    (c : Checker) (as : List α) :
    Climbs KeepsGlobals c (trail f (fun _ _ => []) c as) (as.foldl f c) :=
  climbs_pass (fun c a => .nil (h c a)) c as

theorem climbs_dataStates (c : Checker) (entry : DataDecl × DataType) :
    Climbs KeepsGlobals c (c.dataStates entry) (c.declareData entry) := by
  have hconstructors := (declareConstructors_spec entry.2 c entry.1.variants
    (DataTypes.new_nil _)).1.env
  rw [dataStates, declareData]
  rcases hrun : c.declareConstructors entry.2 [] entry.1.variants with ⟨cons, c₁⟩
  rw [hrun] at hconstructors
  have hpass := climbs_steps
    (keepsGlobals_bindConstructor { entry.2 with constructors := cons }) c₁ cons
  exact .after (keepsGlobals_of_env hconstructors) (hpass.before (keepsGlobals_of_env rfl))

theorem climbs_effectStates (c : Checker) (d : EffectDecl) :
    Climbs KeepsGlobals c (c.effectStates d) (c.declareEffect d) := by
  rw [effectStates, declareEffect]
  split
  · exact .nil (keepsGlobals_of_env rfl)
  · have hinsert : KeepsGlobals c { c with registry := c.registry.insertEffect d.name.node } :=
      keepsGlobals_of_env rfl
    exact .after hinsert
      (climbs_steps (keepsGlobals_declareOperation d.name.node) _ _)

theorem climbs_declareTraitAt (traits : List String) (c : Checker) (d : TraitDecl) (n : Nat) :
    Climbs KeepsGlobals c
      ((trail (declareMethod traits d c.freshTypeVar.1) (fun _ _ => []) ([], c.freshTypeVar.2)
        d.methods).map (·.2)) (c.declareTraitAt traits d n) := by
  have hmethods : Climbs (fun s s' : List Method × Checker => KeepsGlobals s.2 s'.2)
      ([], c.freshTypeVar.2) (trail (declareMethod traits d c.freshTypeVar.1) (fun _ _ => [])
        ([], c.freshTypeVar.2) d.methods)
      (d.methods.foldl (declareMethod traits d c.freshTypeVar.1) ([], c.freshTypeVar.2)) :=
    climbs_trail (P := fun _ _ => True)
      (fun state o _ _ => ⟨.nil (keepsGlobals_declareMethod traits d _ state o), trivial⟩) trivial
  have hfirst : KeepsGlobals c c.freshTypeVar.2 := keepsGlobals_of_env rfl
  have hlast : KeepsGlobals (d.methods.foldl (declareMethod traits d c.freshTypeVar.1)
      ([], c.freshTypeVar.2)).2 (c.declareTraitAt traits d n) := keepsGlobals_of_env rfl
  exact .after hfirst ((hmethods.map (g := Prod.snd)).before hlast)

theorem climbs_traitStates (traits : List String) (c : Checker) (d : TraitDecl) :
    Climbs KeepsGlobals c (c.traitStates traits d) (declareTrait traits c d) := by
  rw [traitStates, declareTrait]
  by_cases hknown : (c.registry.traits.get? d.name.node).isSome = true
  · simp only [hknown, Bool.true_or, if_true]
    exact .nil (keepsGlobals_of_env rfl)
  · simp only [hknown, Bool.false_or, Bool.false_eq_true, if_false, decide_eq_true_eq]
    rcases d.paramArities with _ | ⟨n, _ | ⟨n', ns⟩⟩
    · exact climbs_declareTraitAt traits c d 0
    · exact climbs_declareTraitAt traits c d n
    · exact .nil (keepsGlobals_of_env rfl)

/-- Declaring a module keeps the types of global names at every state. -/
theorem climbs_declarationStates (m : Module) :
    Climbs KeepsGlobals {} m.declarationStates (declareModule {} m) := by
  have hnamed := (typesRecorded_start.declareTypeNames m.allDataDecls fun _ hd => hd).2.2.2.2
  have hdata := climbs_pass climbs_dataStates (declareTypeNames {} m.allDataDecls).2
    (declareTypeNames {} m.allDataDecls).1
  have heffects := climbs_pass climbs_effectStates (afterTypes m) m.allEffectDecls
  have htraits := climbs_pass (climbs_traitStates (m.traitDecls.map (·.name.node)))
    (m.allEffectDecls.foldl declareEffect (afterTypes m)) m.traitDecls
  have himpls := climbs_steps (fun c block => keepsGlobals_of_env (env_declareImpl c block))
    (m.traitDecls.foldl (declareTrait (m.traitDecls.map (·.name.node)))
      (m.allEffectDecls.foldl declareEffect (afterTypes m))) m.implDecls
  have hdefinitions := climbs_steps keepsGlobals_declareDefinition (afterImpls m) m.definitions
  have hstart : Climbs KeepsGlobals {} [{}] (declareTypeNames {} m.allDataDecls).2 :=
    .singleton (keepsGlobals_of_env hnamed)
  exact hstart.append ((((hdata.append heffects).append htraits).append himpls).append hdefinitions)

/-! ## Inference -/

/-- Global names keep their types, and nothing is registered. -/
def Infers (c c' : Checker) : Prop :=
  KeepsGlobals c c' ∧ c'.registry = c.registry

instance : IsPreorder Checker Infers where
  refl _ := ⟨refl_of KeepsGlobals _, rfl⟩
  trans _ _ _ h h' := ⟨trans_of KeepsGlobals h.1 h'.1, h'.2.trans h.2⟩

/-- The names are different, and none of them is global. -/
structure Unbound (c : Checker) (names : List String) : Prop where
  nodup : names.Nodup
  unknown : ∀ n ∈ names, ¬ c.env.hasGlobal n = true

theorem Unbound.append_left {ns : List String} (ns' : List String) (h : c.Unbound (ns ++ ns')) :
    c.Unbound ns :=
  ⟨h.nodup.of_append_left, fun n hn => h.unknown n (mem_append_left _ hn)⟩

/-- Names stay unbound while others are bound. -/
theorem Unbound.append_right (ns : List String) {ns' bound failed reported : List String}
    (h : c.Unbound (ns ++ ns'))
    (hsettled : Settled bound failed reported c c') (hbound : bound ⊆ ns) : c'.Unbound ns' := by
  refine ⟨h.nodup.of_append_right, fun n hn hglobal => ?_⟩
  rcases (hsettled.global n).mp hglobal with hglobal | hmem
  · exact h.unknown n (mem_append_right _ hn) hglobal
  · exact (nodup_append'.mp h.nodup).2.2 (hbound hmem) hn

theorem climbs_outcomeStates {isInferred : Bool} {o : Outcome}
    (h : isInferred = true → c.Unbound (o.schemes.map (·.1))) :
    Climbs Infers c (outcomeStates isInferred c o) (absorb isInferred c o) := by
  have hschemes : Climbs Infers c (outcomeStates isInferred c o)
      (o.schemes.foldl (absorbScheme isInferred) c) := by
    refine climbs_trail (P := fun c schemes => isInferred = true → c.Unbound (schemes.map (·.1)))
      (fun c entry rest hc => ?_) h
    refine ⟨.nil ⟨?_, ?_⟩, fun hinferred => ?_⟩
    · cases isInferred
      · exact keepsGlobals_of_env rfl
      · exact keepsGlobals_bindGlobal (c := c.addSignature _ _ _)
          ((hc rfl).unknown entry.1 (.head _)) _
    · exact (settled_absorbScheme isInferred c entry).registry
    · have hsettled := settled_absorbScheme isInferred c entry
      rw [hinferred] at hsettled ⊢
      exact (hc hinferred).append_right [entry.1] hsettled (List.Subset.refl _)
  refine hschemes.before ⟨keepsGlobals_of_env ?_, ?_⟩
  · rw [absorb, foldl_bindingFailed]
  · rw [absorb, foldl_bindingFailed]

/-- Taking over the outcomes of checks whose names are unbound climbs. -/
theorem climbs_outcomes {α : Type} {check : Pool → α → Outcome × Pool}
    {reported names : α → List String}
    (hcheck : ∀ pool a, (check pool a).1.Settles (reported a) (names a)) (isInferred : Bool)
    (pool : Pool) (as : List α) (h : isInferred = true → c.Unbound (as.flatMap reported)) :
    Climbs Infers c
      (trail (absorb isInferred) (outcomeStates isInferred) c (runAll check pool as).1)
      ((runAll check pool as).1.foldl (absorb isInferred) c) := by
  induction as generalizing c pool with
  | nil => exact .singleton (refl_of Infers c)
  | cons a as ih =>
    have hsub : ((check pool a).1.schemes.map (·.1)).Sublist (reported a) := by
      rcases hcheck pool a with ⟨hschemes, -⟩ | ⟨hschemes, -⟩
      · rw [hschemes]
      · rw [hschemes]
        exact nil_sublist _
    have hfirst : Climbs Infers c (outcomeStates isInferred c (check pool a).1)
        (absorb isInferred c (check pool a).1) := by
      refine climbs_outcomeStates fun hinferred => ?_
      have hunbound := (h hinferred).append_left (as.flatMap reported)
      exact ⟨hunbound.nodup.sublist hsub, fun n hn => hunbound.unknown n (hsub.subset hn)⟩
    have hrest := ih (c := absorb isInferred c (check pool a).1) (check pool a).2
      fun hinferred => by
      have hsettled := settled_absorb isInferred c (check pool a).1
      rw [if_pos hinferred] at hsettled
      exact (h hinferred).append_right (reported a) hsettled hsub.subset
    exact (Climbs.singleton (refl_of Infers c)).append (hfirst.append hrest)

theorem infers_runnable {names : List String} (h : Blocks names c c') (pool : Pool) :
    Infers c (c'.setPool pool) := by
  have hrest := h.rest
  refine ⟨keepsGlobals_of_env ?_, ?_⟩
  · change c'.env = c.env
    rw [hrest]
  · change c'.registry = c.registry
    rw [hrest]

theorem climbs_waveStates {wave : List (List Definition)} (h : c.Unbound (namesOf wave.flatten)) :
    Climbs Infers c (c.waveStates wave) (c.inferWave wave) := by
  obtain ⟨blocked, hperm, hblocks, -⟩ := c.runnableComponents_spec wave
  rw [waveStates, inferWave]
  rcases hrun : c.runnableComponents wave with ⟨runnable, c₁⟩
  rw [hrun] at hperm hblocks
  dsimp only at hperm hblocks ⊢
  refine .after (infers_runnable hblocks _)
    (climbs_outcomes (Component.settles_infer _ _) true _ runnable fun _ => ?_)
  have hall : (runnable.flatMap namesOf ++ blocked.flatMap namesOf).Perm
      (namesOf wave.flatten) := by
    have hflat : namesOf wave.flatten = wave.flatMap namesOf := by
      rw [namesOf, map_flatten]
      rfl
    rw [hflat, ← flatMap_append]
    exact hperm.flatMap_right _
  refine ⟨(hall.nodup_iff.mpr h.nodup).of_append_left, fun n hn => ?_⟩
  change ¬ c₁.env.hasGlobal n = true
  rw [hblocks.rest]
  exact h.unknown n (hall.subset (mem_append_left _ hn))

/-- Waves bind their names for the first time. -/
theorem climbs_waves {waves : List (List (List Definition))}
    (h : c.Unbound (namesOf waves.flatten.flatten)) :
    Climbs Infers c (trail inferWave waveStates c waves) (waves.foldl inferWave c) := by
  refine climbs_trail (P := fun c waves => c.Unbound (namesOf waves.flatten.flatten))
    (fun c wave rest hc => ?_) h
  rw [flatten_cons, flatten_append, namesOf, map_append] at hc
  refine ⟨climbs_waveStates (hc.append_left _), ?_⟩
  obtain ⟨bound, failed, hperm, hsettled, -⟩ := c.settled_inferWave wave
  refine hc.append_right _ hsettled fun n hn => ?_
  obtain ⟨ds, hds, hn⟩ := mem_flatMap.mp hn
  obtain ⟨d, hd, rfl⟩ := mem_map.mp hn
  have hmem : ds ∈ wave := hperm.subset (mem_append_left _ hds)
  exact mem_map_of_mem (mem_flatten.mpr ⟨ds, hmem, hd⟩)

theorem climbs_taskStates (c : Checker) : Climbs Infers c c.taskStates c.checkDeclared := by
  obtain ⟨blocked, -, hblocks, -⟩ := c.runnableTasks_spec c.declared
  rw [taskStates, checkDeclared]
  rcases hrun : c.runnableTasks c.declared with ⟨runnable, c₁⟩
  rw [hrun] at hblocks
  exact .after (infers_runnable hblocks _)
    (climbs_outcomes (DeclaredTask.settles_check _ _) false _ runnable fun h => by cases h)

theorem climbs_inferenceStates (m : Module) (trace : Bool) :
    Climbs Infers (declareModule {} m) (m.inferenceStates trace)
      ((declareModule {} m).setTracing trace).inferComponents.checkDeclared := by
  have hrecorded := recorded_declareModule m
  have hunbound : ((declareModule {} m).setTracing trace).Unbound
      (namesOf (wavesOf (declareModule {} m).inferred).flatten.flatten) := by
    have hperm := (wavesOf_flatten_perm (declareModule {} m).inferred).map (·.name.node)
    refine ⟨hperm.nodup_iff.mpr hrecorded.nodup, fun n hn => ?_⟩
    obtain ⟨d, hd, rfl⟩ := mem_map.mp (hperm.subset hn)
    rw [Bool.not_eq_true]
    exact (hrecorded.inferred d hd).2.2
  have htracing : Infers (declareModule {} m) ((declareModule {} m).setTracing trace) :=
    ⟨keepsGlobals_of_env rfl, rfl⟩
  exact .after htracing ((climbs_waves hunbound).append (climbs_taskStates _))

end Checker

/-! ## Main result -/

/-- From the end of the declarations to the end of the check, a constructor has its type as a value
among the global names, stands once in its data type and in no other one. Through the whole check a
global name never gets another type. The states end in the one that is reported. -/
theorem constructors_agree_and_globals_kept (m : Module) (trace : Bool) :
    (∀ c ∈ m.inferenceStates trace, ∀ name d con,
      c.registry.dataTypes.constructor? name = some (d, con) →
        c.env.globals.get? name = some (d.constructorScheme con) ∧
        d.constructors.filter (·.name = name) = [con] ∧
        ∀ n d', c.registry.dataTypes.get? n = some d' → name ∈ d'.constructors.map (·.name) →
        d' = d) ∧
    (m.declarationStates ++ m.inferenceStates trace).Pairwise Checker.KeepsGlobals ∧
    m.declarationStates.getLast? = some (Checker.declareModule {} m) ∧
    ∃ c, (m.inferenceStates trace).getLast? = some c ∧ m.check trace = c.finish trace := by
  have hdeclares := Checker.climbs_declarationStates m
  have hinfers := Checker.climbs_inferenceStates m trace
  have hlinked := (Checker.recorded_declareModule m).linked
  refine ⟨fun c hc name d con hcon => ?_, pairwise_append.mpr ⟨hdeclares.pairwise,
    hinfers.pairwise.imp fun h => h.1, fun c hc c' hc' => ?_⟩, ?_, ?_⟩
  · obtain ⟨hkeeps, hregistry⟩ := hinfers.start c hc
    rw [hregistry] at hcon ⊢
    obtain ⟨n, hd, hmem, rfl⟩ := DataTypes.constructor?_eq_some hcon
    refine ⟨hkeeps ((Checker.recorded_declareModule m).bound hd hmem),
      filter_eq_singleton_of_nodup_map (hlinked.distinct hd) hmem, fun n' d' hd' hname => ?_⟩
    -- both types are the owner of the name
    obtain ⟨con', hcon', heq⟩ := mem_map.mp hname
    have howner := hlinked.owner hd' hcon'
    rw [heq, hlinked.owner hd hmem] at howner
    rw [← Option.some.inj howner, hd] at hd'
    exact (Option.some.inj hd').symm
  · exact trans_of Checker.KeepsGlobals (hdeclares.stop c hc) (hinfers.start c' hc').1
  · simp [Module.declarationStates, getLast?_cons, getLast?_append, getLast?_trail,
      Checker.declareModule_eq_foldl]
  · refine ⟨((Checker.declareModule {} m).setTracing trace).inferComponents.checkDeclared, ?_, rfl⟩
    simp only [Module.inferenceStates, Checker.taskStates, getLast?_append, getLast?_trail]
    rfl

theorem Module.start_mem_inferenceStates (m : Module) (trace : Bool) :
    (Checker.declareModule {} m).setTracing trace ∈ m.inferenceStates trace :=
  mem_append_left _ (mem_trail_start _ _ _ _)

/-- A module with a data type `Pair a b` and a function that makes pairs. -/
private def pairModule : Module where
  declarations := [
    Declaration.data {
        name := "Pair"
        params := ["a", "b"]
        variants := [{ name := "Pair", fields := [.named "a", .named "b"] }] },
    Declaration.definition {
        name := "twice"
        params := [.var .synthetic "x"]
        body := .call .synthetic (.var .synthetic "Pair")
          [.var .synthetic "x", .var .synthetic "x"] }]

/-- The constructor of pairs. -/
private def pairType : DataType where
  name := "Pair"
  params := [(⟨1⟩, "a"), (⟨2⟩, "b")]
  constructors := [{ name := "Pair", fields := [.var ⟨1⟩, .var ⟨2⟩] }]

private theorem constructor?_pairModule :
    ((Checker.declareModule {} pairModule).setTracing false).registry.dataTypes.constructor?
      "Pair" =
      some (pairType, { name := "Pair", fields := [.var ⟨1⟩, .var ⟨2⟩] }) := by decide +kernel

/-- When inference starts, `Pair` is a global name of the type `a -> b -> Pair a b`. -/
theorem constructors_agree_and_globals_kept_pair :
    ∃ c ∈ pairModule.inferenceStates false,
      c.env.globals.get? "Pair" = some (pairType.constructorScheme
        { name := "Pair", fields := [.var ⟨1⟩, .var ⟨2⟩] }) := by
  obtain ⟨hagree, -⟩ := constructors_agree_and_globals_kept pairModule false
  have hmem := pairModule.start_mem_inferenceStates false
  exact ⟨_, hmem, (hagree _ hmem _ _ _ constructor?_pairModule).1⟩

end RowTyping
