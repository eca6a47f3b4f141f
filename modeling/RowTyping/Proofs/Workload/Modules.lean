import RowTyping.Proofs.Check.Outcomes
import RowTyping.Proofs.Check.Tracing
import RowTyping.Proofs.Lockstep.Declared
import RowTyping.Proofs.Lockstep.Signature
import RowTyping.Workload

/-!
# Generated modules

The modules of a workload are families of definitions that each use earlier ones
(`Workload.Family`). A definition is inferred once for all modules, next to a single one that it
uses (`Workload.inferWith`). In a run other variables have been drawn before, and the scheme that is
found differs in their names only (`Workload.Family.infer_found`). So each wave leaves the checker
in a state that is known up to names (`Workload.Family.Reached`), and the modules are checked
without diagnostics (`Workload.generated_modules_check`).
-/

namespace RowTyping

open List

theorem Sorted.forall₂_ofList {α : Type} [Ord α] {R : α → α → Prop} {as bs : List α}
    (h : Forall₂ R as bs) (hR : ∀ {a a' b b'}, R a a' → R b b' → compare a b = compare a' b') :
    Forall₂ R (ofList as) (ofList bs) := by
  have hinsert {a a' : α} (ha : R a a') {bs bs' : List α} (hbs : Forall₂ R bs bs') :
      Forall₂ R (insert a bs) (insert a' bs') := by
    induction hbs with
    | nil => exact .cons ha .nil
    | cons hb hbs ih =>
      rw [insert, insert, hR ha hb]
      split
      · exact .cons ha (.cons hb hbs)
      · exact .cons hb hbs
      · exact .cons hb ih
  induction h with
  | nil => exact .nil
  | cons ha _ ih => exact hinsert ha ih

/-- Quantified variables match in order if ids do. -/
theorem Matching.Schemes.quantified {ρ : Matching} {σ σ' : Scheme} (h : ρ.Schemes σ σ')
    (hρ : ρ.Increasing) :
    Forall₂ ρ.Vars σ.quantified σ'.quantified := by
  have htypes := Sorted.forall₂_ofList h.typeVars hρ.compare_types
  have heffects := Sorted.forall₂_ofList h.effectVars hρ.compare_effects
  refine rel_append (rel_map (fun _ _ h => ?_) htypes) (rel_map (fun _ _ h => ?_) heffects)
  · exact .type h
  · exact .effect h

/-! ## Components of one definition -/

/-- If every edge leads to a lower rank, components have one vertex. -/
theorem Dependencies.eq_singleton_of_mem_components {g : Graph} (rank : Nat → Nat)
    (hrank : ∀ v w, Edge g v w → rank w < rank v) {c : List Nat} (hc : c ∈ components g) :
    ∃ v < g.length, c = [v] := by
  have hreaches {v w : Nat} (h : Reaches g v w) : v = w ∨ rank w < rank v := by
    induction h with
    | refl => exact .inl rfl
    | tail _ hedge ih =>
      have hlt := hrank _ _ hedge
      rcases ih with rfl | ih
      · exact .inr hlt
      · exact .inr (hlt.trans ih)
  have hemitted := emitted_components g
  obtain ⟨v, vs, rfl⟩ := exists_cons_of_ne_nil (hemitted.nonempty c hc)
  refine ⟨v, lt_length_of_mem_components hc (.head _), ?_⟩
  -- another member would reach the first one and be reached by it
  refine congrArg _ (eq_nil_iff_forall_not_mem.mpr fun w hw => ?_)
  have hlt := (pairwise_cons.mp (hemitted.ascending _ hc)).1 w hw
  have hto := hreaches (hemitted.connected _ hc v (.head _) w (.tail _ hw))
  have hback := hreaches (hemitted.connected _ hc w (.tail _ hw) v (.head _))
  omega

namespace Checker

/-- If every definition refers to earlier ones only, each is inferred on its own. -/
theorem eq_singleton_of_mem_wavesOf {f : Nat → Definition} {is : List Nat}
    (hearlier : ∀ i ∈ is, ∀ j ∈ is, (f j).name.node ∈ (f i).freeNames → j < i)
    {wave : List (List Definition)}
    (hwave : wave ∈ wavesOf (is.map f)) {ds : List Definition} (hds : ds ∈ wave) :
    ∃ i ∈ is, ds = [f i] := by
  obtain ⟨ws, hws, rfl⟩ := mem_map.mp hwave
  obtain ⟨c, hc, rfl⟩ := mem_map.mp hds
  have hcomponent := (Dependencies.flatten_waves_perm _).mem_iff.mp (mem_flatten.mpr ⟨ws, hws, hc⟩)
  have hrank (v w : Nat) (hedge : Dependencies.Edge (dependencyGraph (is.map f)) v w) :
      is.getD w 0 < is.getD v 0 := by
    obtain ⟨d, hd, n, hn, hw⟩ := mem_depsOf_dependencyGraph.mp hedge.1
    obtain ⟨hlt, rfl, -⟩ := idxOf?_eq_some_iff.mp hw
    obtain ⟨i, hi, rfl⟩ : ∃ i, is[v]? = some i ∧ f i = d := by simpa using hd
    have hlt : w < is.length := by simpa [namesOf] using hlt
    have hless := hearlier i (mem_of_getElem? hi) is[w] (getElem_mem hlt)
      (by simpa [namesOf] using hn)
    simpa [getD_eq_getElem?_getD, hi, hlt] using hless
  obtain ⟨v, hv, rfl⟩ := Dependencies.eq_singleton_of_mem_components (is.getD · 0) hrank hcomponent
  have hlt : v < is.length := by simpa [dependencyGraph] using hv
  exact ⟨is[v], getElem_mem hlt, by simp [hlt]⟩

theorem runAll_spec {α : Type} (check : Pool → α → Outcome × Pool) (as : List α) {P : Pool → Prop}
    {Q : α → Outcome → Prop} {pool : Pool}
    (h : ∀ pool, P pool → ∀ a ∈ as, Q a (check pool a).1 ∧ P (check pool a).2) (hpool : P pool) :
    Forall₂ Q as (runAll check pool as).1 ∧ P (runAll check pool as).2 := by
  induction as generalizing pool with
  | nil => exact ⟨.nil, hpool⟩
  | cons a as ih =>
    obtain ⟨ha, hnext⟩ := h pool hpool a (.head _)
    have hrest := ih (fun pool hpool a ha => h pool hpool a (.tail _ ha)) hnext
    exact ⟨.cons ha hrest.1, hrest.2⟩

variable {c : Checker}

theorem runnableComponents_of_nil (h : c.failed = []) (wave : List (List Definition)) :
    c.runnableComponents wave = (wave, c) := by
  induction wave with
  | nil => rfl
  | cons ds rest ih =>
    rw [runnableComponents]
    split
    · rw [ih]
    · rename_i hfound
      simpa [h] using find?_some hfound

theorem runnableTasks_of_nil (h : c.failed = []) (tasks : List DeclaredTask) :
    c.runnableTasks tasks = (tasks, c) := by
  induction tasks with
  | nil => rfl
  | cons task rest ih =>
    rw [runnableTasks]
    split
    · rw [ih]
    · rename_i hfound
      simpa [h] using find?_some hfound

theorem absorb_of_found (isInferred : Bool) (c : Checker) {o : Outcome}
    {entries : List (String × Scheme × Span)}
    (h : o.found = (entries, [], [])) : ∃ resolutions events,
      absorb isInferred c o =
        { entries.foldl (absorbScheme isInferred) c with resolutions, events } := by
  obtain ⟨schemes, failures, warnings, resolutions, events⟩ := o
  cases h
  exact ⟨_, _, by simp only [absorb, append_nil]; rfl⟩

end Checker

namespace Workload

/-- A module that declares the trait `Functor` with its implementation, and then definitions. -/
def generated (ds : List Definition) : Module where
  declarations := functorDecls ++ ds.map fun d => located (.definition d)

/-- The state after the declarations that generated modules share. -/
def start : Checker :=
  Checker.declareModule {} (generated [])

theorem declareModule_generated {ds : List Definition} (hsigned : ∀ d ∈ ds, d.declared = none)
    (hnew : ∀ d ∈ ds, start.env.hasGlobal d.name.node = false) (hnodup : (namesOf ds).Nodup) :
    Checker.declareModule {} (generated ds) = { start with inferred := ds } := by
  have hdeclared : Checker.declareModule {} (generated ds) =
      ds.foldl Checker.declareDefinition start := by
    have hparts (ds : List Definition) :
      (generated ds).dataDecls = [] ∧ (generated ds).effectDecls = [] ∧
        (generated ds).traitDecls = [functor] ∧ (generated ds).implDecls = [functorMaybe] ∧
        (generated ds).definitions = ds := by
      simp [Module.dataDecls, Module.effectDecls, Module.traitDecls, Module.implDecls,
        Module.definitions, generated,
        functorDecls, located]
    simp only [start, Checker.declareModule, hparts, foldl_nil]
  rw [hdeclared]
  clear hdeclared
  induction ds using List.reverseRecOn with
  | nil => rfl
  | append_singleton ds d ih =>
    rw [namesOf_append, nodup_append] at hnodup
    simp only [forall_mem_append, forall_mem_singleton] at hsigned hnew
    have hinferred : ds.any (·.name.node = d.name.node) = false := by
      simpa [namesOf] using hnodup.2.2
    rw [foldl_append, ih hsigned.1 hnew.1 hnodup.1, foldl_cons, foldl_nil,
      Checker.declareDefinition]
    simp [hsigned.2, hnew.2, hinferred]

theorem signatures_start : ∀ s ∈ start.signatures, (start.env.globals.get? s.name).isSome := by
  decide +kernel

/-- The variables that the shared declarations mention. -/
def known : List Var :=
  [.type ⟨0⟩, .type ⟨1⟩, .type ⟨2⟩, .type ⟨3⟩, .effect ⟨0⟩]

theorem mentioned_start : ∀ x ∈ start.registry.mentioned, x ∈ known := by
  decide +kernel

theorem mentioned_declared {n : String} {σ : Scheme} (h : start.env.globals.get? n = some σ) :
    ∀ x ∈ σ.mentioned, x ∈ known := by
  have hknown : ∀ σ ∈ start.env.globals.values, ∀ x ∈ σ.mentioned, x ∈ known := by decide +kernel
  exact hknown σ (Dict.mem_values_of_get? h)

/-- A pool above these variables. -/
def firstPool : Pool where
  types.taken := 1
  effects.taken := 1

theorem spaced_firstPool : firstPool.Spaced :=
  ⟨fun k _ => Blocks.spaced_default k k.zero_le, fun k _ => Blocks.spaced_default k k.zero_le⟩

theorem above_firstPool : ∀ x ∈ known, firstPool.ready.Above x := by
  have habove : ∀ x ∈ known, firstPool.Above x := by decide
  exact fun x hx => spaced_firstPool.above_ready (habove x hx)

theorem pool_start : start.fresh.pool = firstPool := by
  rfl

/-- What is found for a definition where a name may have a scheme besides those that are
declared. -/
def inferWith (used : Option (String × Scheme)) (d : Definition) :
    List (String × Scheme × Span) × List (String × TypingError) × List Diagnostic :=
  (Component.infer start.registry
    { globals := ⟨used.toList ++ start.env.globals.entries⟩ } firstPool [d]).1.found

/-- The scheme is used like all that match `σ`. -/
structure StandsFor (σ₀ σ : Scheme) : Prop where
  known : ∀ x ∈ σ₀.mentioned, x ∈ known
  instantiate : ∀ {ρ : Matching} {τ : Scheme}, ρ.Schemes σ τ →
    Infer.instantiate σ₀ = Infer.instantiate τ

/-- The definition is inferred to have the scheme of its number. Besides what is declared it refers
at most to one function of a lower number. -/
def Infers (name : Nat → String) (scheme : Nat → Scheme) (i : Nat) (d : Definition) : Prop :=
  ∃ used : Option (Nat × Scheme), (∀ u ∈ used, u.1 < i ∧ StandsFor u.2 (scheme u.1)) ∧
    (∀ n ∈ d.freeNames, (start.env.globals.get? n).isSome ∨ ∃ u ∈ used, n = name u.1) ∧
    inferWith (used.map fun u => (name u.1, u.2)) d = ([(name i, scheme i, here)], [], [])

/-- Functions with numbers. -/
structure Family where
  name : Nat → String
  param : Nat → String
  body : Nat → Expr
  scheme : Nat → Scheme
  injective : Function.Injective name
  new : ∀ i, start.env.globals.get? (name i) = none
  closed : ∀ i, (scheme i).Closed
  infers : ∀ i, Infers name scheme i (function (name i) [param i] (body i))

namespace Family

variable (F : Family)

/-- The function of the given number. -/
def definition (i : Nat) : Definition :=
  function (F.name i) [F.param i] (F.body i)

/-- The scheme is that of the function, up to its variables. -/
def Gets (i : Nat) (σ : Scheme) : Prop :=
  ∃ ρ : Matching, ρ.Increasing ∧ ρ.Schemes (F.scheme i) σ

variable {F}

theorem lt_of_mem_freeNames {i j : Nat} (h : F.name j ∈ (F.definition i).freeNames) : j < i := by
  obtain ⟨used, hearlier, hrefers, -⟩ := F.infers i
  rcases hrefers _ h with hdeclared | ⟨u, hu, heq⟩
  · rw [F.new j] at hdeclared
    cases hdeclared
  · exact F.injective heq ▸ (hearlier u hu).1

/-- Where the names that it refers to have their schemes, a function gets its own with any
supply. -/
theorem infer_found {i : Nat} {env : Env} {pool : Pool} (hscopes : env.scopes = [])
    (hstart : ∀ n σ, start.env.globals.get? n = some σ → env.globals.get? n = some σ)
    (hrefers : ∀ j, F.name j ∈ (F.definition i).freeNames → ∃ σ, F.Gets j σ ∧
      env.globals.get? (F.name j) = some σ)
    (hpool : pool.Spaced) (habove : ∀ x ∈ known, pool.ready.Above x) : ∃ σ, F.Gets i σ ∧
      (Component.infer start.registry env pool [F.definition i]).1.found =
        ([(F.name i, σ, here)], [], []) := by
  obtain ⟨used, hearlier, hfree, hinfers⟩ := F.infers i
  obtain ⟨ρ, hρ, hself, hsupplies⟩ := Matching.exists_matching spaced_firstPool hpool fun x hx =>
    ⟨above_firstPool x hx, habove x hx⟩
  have hrefl {σ : Scheme} (hσ : ∀ x ∈ σ.mentioned, x ∈ known) : ρ.Schemes σ σ :=
    Matching.schemes_refl fun x hx => hself x (hσ x hx)
  have huses (n : String) (hn : n ∈ (F.definition i).freeNames) : ∃ σ σ',
      Dict.lookup n ((used.map fun u => (F.name u.1, u.2)).toList ++ start.env.globals.entries) =
        some σ ∧ env.globals.get? n = some σ' ∧ ρ.Uses σ σ' := by
    by_cases hused : ∃ u ∈ used, n = F.name u.1
    · obtain ⟨u, hu, rfl⟩ := hused
      have hstands := (hearlier u hu).2
      obtain ⟨τ, ⟨ρ', -, hρ'⟩, hτ⟩ := hrefers u.1 hn
      rw [hu]
      exact ⟨u.2, τ, if_pos rfl, hτ, _, hrefl hstands.known, hstands.instantiate hρ'⟩
    · obtain ⟨σ, hσ⟩ := Option.isSome_iff_exists.mp ((hfree n hn).resolve_right hused)
      refine ⟨σ, σ, ?_, hstart n σ hσ, (hrefl (mentioned_declared hσ)).uses⟩
      rcases used with _ | u
      · rw [Option.map_none, Option.toList_none, nil_append]
        exact hσ
      · exact (if_neg fun heq => hused ⟨u, rfl, heq⟩).trans hσ
  obtain ⟨hidden, hdisjoint, henv⟩ := Matching.exists_envs hscopes huses
  have hreg := Matching.keeps_of_mentioned hρ fun x hx => hself x (mentioned_start x hx)
  have houtcome := Component.infer_lockstep hreg henv hsupplies [F.definition i]
    (by simpa using hdisjoint)
  obtain ⟨hschemes, hfailures, hwarnings⟩ : _ = _ ∧ _ = _ ∧ _ = _ := by
    simpa [Outcome.found, inferWith] using hinfers
  obtain ⟨hs, hf, hw, -⟩ := houtcome
  rw [definition, hschemes] at hs
  rw [definition, hfailures, forall₂_nil_left_iff] at hf
  rw [definition, hwarnings] at hw
  generalize hentries : (Component.infer start.registry env pool _).1.schemes = entries at hs
  cases hs with
  | @cons _ entry _ _ hentry hrest =>
    cases hrest
    obtain ⟨n, σ, span⟩ := entry
    obtain ⟨rfl, hσ, rfl⟩ := hentry
    exact ⟨σ, ⟨ρ, hρ, hσ⟩, by simp only [Outcome.found, definition, hentries, hf, ← hw]⟩

/-! ### The run -/

/-- The check has gone well so far: the functions with names in `done` have got their schemes, and
nothing else has changed since the shared declarations. -/
structure Reached (F : Family) (done : List String) (c : Checker) : Prop where
  above : ∀ x ∈ known, c.fresh.pool.ready.Above x
  registry : c.registry = start.registry
  declared : c.declared = start.declared
  failed : c.failed = []
  diagnostics : c.diagnostics = []
  scopes : c.env.scopes = []
  shared : ∀ n σ, start.env.globals.get? n = some σ → c.env.globals.get? n = some σ
  bound : ∀ i, F.name i ∈ done → ∃ σ, F.Gets i σ ∧ c.env.globals.get? (F.name i) = some σ ∧
    .ofScheme (F.name i) σ here ∈ c.signatures
  signatures : ∀ s ∈ c.signatures, s ∈ start.signatures ∨ ∃ i σ, F.Gets i σ ∧
    s = .ofScheme (F.name i) σ here

variable {done done' : List String} {c : Checker}

theorem Reached.mono (h : Reached F done c) (hsub : ∀ n ∈ done', n ∈ done) : Reached F done' c :=
  { h with bound := fun i hi => h.bound i (hsub _ hi) }

/-- A function that is inferred is one more that has got its scheme. -/
theorem Reached.absorb (h : Reached F done c) {i : Nat} {σ : Scheme} (hσ : F.Gets i σ) {o : Outcome}
    (ho : o.found = ([(F.name i, σ, here)], [], [])) :
    Reached F (F.name i :: done) (Checker.absorb true c o) := by
  obtain ⟨resolutions, events, heq⟩ := Checker.absorb_of_found true c ho
  have hget (n : String) : (c.env.bindGlobal (F.name i) σ).globals.get? n =
      if n = F.name i then some σ else c.env.globals.get? n := Dict.get?_insert ..
  rw [heq]
  refine
    { h with shared := fun n τ hn => ?_, bound := fun j hj => ?_, signatures := fun s hs => ?_ }
  · have hne : n ≠ F.name i := by
      rintro rfl
      cases hn.symm.trans (F.new i)
    exact (hget n).trans ((if_neg hne).trans (h.shared n τ hn))
  · by_cases hji : F.name j = F.name i
    · cases F.injective hji
      exact ⟨σ, hσ, (hget _).trans (if_pos rfl), mem_append_right _ (mem_singleton_self _)⟩
    · obtain ⟨τ, hτ, hbound, hreported⟩ := h.bound j ((mem_cons.mp hj).resolve_left hji)
      exact ⟨τ, hτ, (hget _).trans ((if_neg hji).trans hbound), mem_append_left _ hreported⟩
  · rcases mem_append.mp hs with hs | hs
    · exact h.signatures s hs
    · exact .inr ⟨i, σ, hσ, mem_singleton.mp hs⟩

/-- The component is a function that has got its scheme. -/
def Inferred (F : Family) (ds : List Definition) (o : Outcome) : Prop :=
  ∃ i σ, ds = [F.definition i] ∧ F.Gets i σ ∧ o.found = ([(F.name i, σ, here)], [], [])

theorem Reached.absorbAll {wave : List (List Definition)} {os : List Outcome} (h : Reached F done c)
    (hos : Forall₂ (Inferred F) wave os) :
    Reached F (namesOf wave.flatten ++ done) (os.foldl (Checker.absorb true) c) := by
  induction hos generalizing c done with
  | nil => exact h
  | cons ho _ ih =>
    obtain ⟨i, σ, rfl, hσ, ho⟩ := ho
    refine (ih (h.absorb hσ ho)).mono fun n hn => ?_
    change n ∈ F.name i :: (namesOf _ ++ done) at hn
    simp only [mem_cons, mem_append] at hn ⊢
    tauto

theorem Reached.inferWave (h : Reached F done c) (hc : c.Poised) {wave : List (List Definition)}
    (hwave : ∀ ds ∈ wave, ∃ i, ds = [F.definition i] ∧
      ∀ j, F.name j ∈ (F.definition i).freeNames → F.name j ∈ done) :
    Reached F (namesOf wave.flatten ++ done) (c.inferWave wave) := by
  rw [Checker.inferWave, Checker.runnableComponents_of_nil h.failed]
  have hrun := Checker.runAll_spec (Component.infer c.registry c.env) wave (Q := Inferred F)
    (P := fun pool => pool.Spaced ∧ c.Valid pool.ready ∧ ∀ x ∈ known, pool.ready.Above x)
    (fun pool hpool ds hds => ?_) ⟨hc.spaced, hc.valid, h.above⟩
  · have hset : Reached F done
        (c.setPool (Checker.runAll (Component.infer c.registry c.env) c.fresh.pool wave).2) :=
      { h with above := hrun.2.2.2 }
    exact hset.absorbAll hrun.1
  · obtain ⟨i, rfl, hdone⟩ := hwave ds hds
    obtain ⟨f, hreaches, hleft, -⟩ := Component.infer_valid hpool.1 hpool.2.1 [F.definition i]
    obtain ⟨hspaced, -, hlater⟩ := Checker.later_of_reaches hpool.1 hreaches
    obtain ⟨σ, hσ, hfound⟩ := infer_found h.scopes h.shared (fun j hj =>
      (h.bound j (hdone j hj)).imp fun σ hσ => ⟨hσ.1, hσ.2.1⟩) hpool.1 hpool.2.2
    rw [← h.registry] at hfound
    rw [hleft]
    exact ⟨⟨i, σ, rfl, hσ, hfound⟩, hspaced, hpool.2.1.later hlater,
      fun x hx => (hpool.2.2 x hx).later hlater⟩

theorem Reached.foldl_inferWave {is : List Nat} (hdown : ∀ i ∈ is, ∀ j < i, j ∈ is)
    {waves : List (List (List Definition))} (h : Reached F done c) (hc : c.Poised)
    (horder : Checker.InOrder (namesOf (is.map F.definition)) done waves)
    (hwaves : ∀ wave ∈ waves, ∀ ds ∈ wave, ∃ i ∈ is, ds = [F.definition i]) :
    Reached F (namesOf waves.flatten.flatten ++ done) (waves.foldl Checker.inferWave c) ∧
      (waves.foldl Checker.inferWave c).Poised := by
  induction waves generalizing c done with
  | nil => exact ⟨h, hc⟩
  | cons wave rest ih =>
    rw [forall_mem_cons] at hwaves
    have hwave : Reached F (namesOf wave.flatten ++ done) (c.inferWave wave) := by
      refine h.inferWave hc fun ds hds => ?_
      obtain ⟨i, hi, rfl⟩ := hwaves.1 ds hds
      refine ⟨i, rfl, fun j hj => ?_⟩
      have hlt := lt_of_mem_freeNames hj
      refine (horder.1 _ hds _ (mem_singleton_self _) _ hj ?_).resolve_left fun hself => ?_
      · exact mem_namesOf (mem_map_of_mem (hdown i hi j hlt))
      · exact hlt.ne (F.injective (mem_singleton.mp hself))
    refine (ih hwave (hc.inferWave wave).1 horder.2 hwaves.2).imp_left fun hrest => hrest.mono
      fun n hn => ?_
    simp only [flatten_cons, flatten_append, namesOf_append, mem_append] at hn ⊢
    tauto

set_option maxRecDepth 20000 in
theorem fits_start :
    start.declared.all (·.fits start.registry { globals := start.env.globals } firstPool) =
      true := by
  cbv

theorem declared_start : ∀ task ∈ start.declared, task.isReported = false ∧
    (∀ n ∈ task.definition.freeNames, (start.env.globals.get? n).isSome) ∧
    ∀ x ∈ task.scheme.mentioned, x ∈ known := by
  decide +kernel

/-- The implementation that generated modules share passes its check after any functions. -/
theorem Reached.checkDeclared (h : Reached F done c) (hc : c.Poised) :
    c.checkDeclared.diagnostics = [] ∧ c.checkDeclared.signatures = c.signatures := by
  obtain ⟨task, htask⟩ : ∃ task, start.declared = [task] := ⟨_, rfl⟩
  obtain ⟨hreported, hfree, hknown⟩ := declared_start task (htask ▸ mem_singleton_self task)
  obtain ⟨ρ, hρ, hself, hsupplies⟩ :=
    Matching.exists_matching spaced_firstPool hc.spaced fun x hx =>
    ⟨above_firstPool x hx, h.above x hx⟩
  have hrefl {σ : Scheme} (hσ : ∀ x ∈ σ.mentioned, x ∈ known) : ρ.Schemes σ σ :=
    Matching.schemes_refl fun x hx => hself x (hσ x hx)
  have huses (n : String) (hn : n ∈ task.definition.freeNames) :
    ∃ σ σ', start.env.globals.get? n = some σ ∧
      c.env.globals.get? n = some σ' ∧ ρ.Uses σ σ' := by
    obtain ⟨σ, hσ⟩ := Option.isSome_iff_exists.mp (hfree n hn)
    exact ⟨σ, σ, hσ, h.shared n σ hσ, (hrefl (mentioned_declared hσ)).uses⟩
  obtain ⟨hidden, hdisjoint, henv⟩ := Matching.exists_envs h.scopes huses
  have hreg := Matching.keeps_of_mentioned hρ fun x hx => hself x (mentioned_start x hx)
  have hfits := all_eq_true.mp fits_start task (htask ▸ mem_singleton_self task)
  have hfound := DeclaredTask.found_of_fits hreg henv hdisjoint hsupplies (hrefl hknown) hfits
  rw [hreported, ← h.registry] at hfound
  have hcheck : c.checkDeclared =
    Checker.absorb false (c.setPool (task.check c.registry c.env c.fresh.pool).2)
      (task.check c.registry c.env c.fresh.pool).1 := by
    rw [Checker.checkDeclared, Checker.runnableTasks_of_nil h.failed, h.declared, htask]
    rfl
  obtain ⟨_, _, heq⟩ := Checker.absorb_of_found false
    (c.setPool (task.check c.registry c.env c.fresh.pool).2) hfound
  rw [hcheck, heq]
  exact ⟨h.diagnostics, rfl⟩

theorem reached_start {is : List Nat} (hnodup : is.Nodup) :
    Reached F [] (Checker.declareModule {} (generated (is.map F.definition))) ∧
      (Checker.declareModule {} (generated (is.map F.definition))).inferred =
        is.map F.definition := by
  have hnames : (namesOf (is.map F.definition)).Nodup := by
    rw [namesOf, map_map]
    exact hnodup.map F.injective
  have hnew : ∀ d ∈ is.map F.definition, start.env.hasGlobal d.name.node = false := by
    refine forall_mem_map.mpr fun i _ => ?_
    change (start.env.globals.get? (F.name i)).isSome = false
    rw [F.new i, Option.isSome_none]
  rw [declareModule_generated (forall_mem_map.mpr fun _ _ => rfl) hnew hnames]
  exact ⟨{
    above := pool_start ▸ above_firstPool
    registry := rfl
    declared := rfl
    failed := by rfl
    diagnostics := by rfl
    scopes := by rfl
    shared := fun _ _ h => h
    bound := fun _ h => absurd h not_mem_nil
    signatures := fun _ h => .inl h }, rfl⟩

/-- Functions of a family that are closed under reference are checked without diagnostics, and each
gets its signature. -/
theorem check_generated (F : Family) {is : List Nat} (hnodup : is.Nodup)
    (hdown : ∀ i ∈ is, ∀ j < i, j ∈ is)
    (trace : Bool) : ((generated (is.map F.definition)).check trace).diagnostics = [] ∧ ∀ i ∈ is,
      (((generated (is.map F.definition)).check trace).signature? (F.name i)).map (·.render) =
        some (Signature.ofScheme (F.name i) (F.scheme i) here).render := by
  obtain ⟨hstart, hinferred⟩ := reached_start (F := F) hnodup
  have hsingle : ∀ wave ∈ Checker.wavesOf (is.map F.definition), ∀ ds ∈ wave, ∃ i ∈ is, ds =
      [F.definition i] :=
    fun wave hwave ds hds => Checker.eq_singleton_of_mem_wavesOf
      (fun _ _ _ _ => lt_of_mem_freeNames) hwave hds
  obtain ⟨hwaves, hpoised⟩ := hstart.foldl_inferWave hdown (Checker.ready_declareModule _).poised
    (Checker.inOrder_wavesOf _) hsingle
  obtain ⟨hdiagnostics, hsignatures⟩ := hwaves.checkDeclared hpoised
  have hchecked : (generated (is.map F.definition)).checked = (List.foldl Checker.inferWave
      (Checker.declareModule {} (generated (is.map F.definition)))
        (Checker.wavesOf (is.map F.definition))).checkDeclared := by
    rw [Module.checked, Checker.inferComponents, hinferred]
    rfl
  refine ⟨?_, fun i hi => ?_⟩
  · rw [Module.diagnostics_check, hchecked, hdiagnostics]
  · rw [Report.signature?, Module.signatures_check, Checker.finish, hchecked]
    dsimp only
    rw [hsignatures]
    have hdone := mem_namesOf ((Checker.wavesOf_flatten_perm _).mem_iff.mpr
      (mem_map_of_mem (f := F.definition) hi))
    obtain ⟨σ, -, -, hreported⟩ := hwaves.bound i (mem_append_left _ hdone)
    generalize hfound : List.find? _ _ = found
    cases found with
    | none =>
      exact absurd (decide_eq_true rfl) (find?_eq_none.mp hfound _ (mem_mergeSort.mpr hreported))
    | some s =>
      have hname : s.name = F.name i := by simpa using find?_some hfound
      have hs := hwaves.signatures s (mem_mergeSort.mp (mem_of_find?_eq_some hfound))
      rcases hs with hs | ⟨j, τ, ⟨ρ, hρ, hτ⟩, rfl⟩
      · have hglobal := signatures_start s hs
        rw [hname, F.new i] at hglobal
        cases hglobal
      · cases F.injective hname
        exact congrArg some (hτ.render_eq (F.closed i) (hτ.quantified hρ) _ _).symm

end Family

/-! ## Names with numbers -/

theorem toList_numbered (stem : String) (i : Nat) :
    s!"{stem}{i}".toList = stem.toList ++ (Nat.repr i).toList := by
  simp [toString]

theorem numbered_injective (stem : String) : Function.Injective fun i : Nat => s!"{stem}{i}" := by
  intro i j h
  have hlist := congrArg String.toList h
  simp only [toList_numbered, append_cancel_left_eq] at hlist
  simpa using congrArg (Nat.ofDigitChars 10 · 0) hlist

theorem ne_numbered {stem w : String} (h : ¬ stem.toList <+: w.toList) (i : Nat) :
    w ≠ s!"{stem}{i}" := by
  rintro rfl
  exact h (toList_numbered stem i ▸ prefix_append _ _)

theorem get?_numbered {stem : String} (h : ∀ w ∈ start.env.globals.keys, ¬ stem.toList <+: w.toList)
    (i : Nat) :
    start.env.globals.get? s!"{stem}{i}" = none := by
  by_contra hsome
  obtain ⟨σ, hσ⟩ := Option.ne_none_iff_exists'.mp hsome
  exact ne_numbered (h _ (Dict.mem_keys_of_get? hσ)) i rfl

/-! ## The two families -/

/-- A function from a type that is quantified over. -/
def polymorphic (result : Ty → Ty) (v : TypeVar) : Scheme where
  typeVars := [v]
  type := .fn [.var v] (result (.var v)) .pure

/-- The type of optional values. -/
def maybe (t : Ty) : Ty :=
  .named "Maybe" [t]

theorem closed_polymorphic {result : Ty → Ty} (h : result = id ∨ result = maybe) (v : TypeVar) :
    (polymorphic result v).Closed := by
  have hv := mem_singleton_self v
  rcases h with rfl | rfl
  all_goals exact ⟨forall_mem_cons.mpr ⟨hv, forall_mem_singleton.mpr hv⟩, forall_mem_nil _⟩

theorem standsFor_polymorphic {result : Ty → Ty} (h : result = id ∨ result = maybe) (v : TypeVar) :
    StandsFor (polymorphic result ⟨0⟩) (polymorphic result v) := by
  refine ⟨by rcases h with rfl | rfl <;> decide, fun {ρ τ} hτ => ?_⟩
  obtain ⟨_, _, _, _, t⟩ := τ
  obtain ⟨hvars, heffects, hgivens, -, ht⟩ := hτ
  cases heffects
  cases hgivens
  rcases hvars with _ | ⟨hv, ⟨⟩⟩
  funext span st
  rcases h with rfl | rfl
  · cases (ht.eq_iff (.fn (.cons (.var hv) .nil) (.var hv) (.closed []))).mp rfl
    cbv
  · cases (ht.eq_iff (.fn (.cons (.var hv) .nil) (.named _ (.cons (.var hv) .nil)) (.closed []))).mp
      rfl
    cbv

section Found

variable {n m : String}

set_option maxRecDepth 20000

theorem inferWith_id :
    inferWith none (function "id" ["y"] (var "y")) =
      ([("id", polymorphic id ⟨1025⟩, here)], [], []) := by
  cbv

theorem inferWith_some (hn : "Some" ≠ n) :
    inferWith none (function n ["x"] (call "Some" [var "x"])) =
      ([(n, polymorphic maybe ⟨1025⟩, here)], [], []) := by
  cbv
  rw [if_neg hn]
  cbv

theorem inferWith_call (hx : m ≠ "x") (hn : m ≠ n) :
    inferWith (some (m, polymorphic maybe ⟨0⟩)) (function n ["x"] (call m [var "x"])) =
      ([(n, polymorphic maybe ⟨1025⟩, here)], [], []) := by
  cbv
  rw [if_neg hx]
  cbv
  rw [if_neg hn]
  cbv

theorem inferWith_map (hmap : "map" ≠ n) (hsome : "Some" ≠ n) (hid : "id" ≠ n) :
    inferWith (some ("id", polymorphic id ⟨0⟩))
      (function n ["x"] (call "map" [call "Some" [var "x"], var "id"])) =
      ([(n, polymorphic maybe ⟨1030⟩, here)], [], []) := by
  cbv
  rw [if_neg hmap]
  cbv
  rw [if_neg hsome]
  cbv
  rw [if_neg hid]
  cbv

/-- The scheme of the functions that depend on declarations only. -/
def liftScheme : Scheme where
  typeVars := [⟨1031⟩, ⟨1026⟩]
  type := .fn [.var ⟨1031⟩] (.fn [.var ⟨1026⟩] (maybe (.prim .int)) .pure) .pure

theorem inferWith_lift (hmap : "map" ≠ n) (hsome : "Some" ≠ n) (i : Nat) :
    inferWith none (function n ["x"] (liftBody i)) = ([(n, liftScheme, here)], [], []) := by
  cbv
  rw [if_neg hmap]
  cbv
  rw [if_neg hsome]
  cbv

end Found

theorem declared_of_mem {n : String} (h : n ∈ ["Some", "map"]) :
    (start.env.globals.get? n).isSome := by
  have hnames : ∀ n ∈ ["Some", "map"], (start.env.globals.get? n).isSome := by decide +kernel
  exact hnames n h

/-- The functions of `independent`. -/
def lifts : Family where
  name i := s!"lift{i}"
  param _ := "x"
  body := liftBody
  scheme _ := liftScheme
  injective := numbered_injective "lift"
  new := get?_numbered (by decide +kernel)
  closed _ := ⟨by decide +kernel, forall_mem_nil _⟩
  infers i := ⟨none, nofun, fun _ hn => .inl (declared_of_mem hn),
    inferWith_lift (ne_numbered (by decide) i) (ne_numbered (by decide) i) i⟩

/-- The names in `chain`, from `id` on. -/
def stepName : Nat → String
  | 0 => "id"
  | i + 1 => s!"step{i}"

/-- The schemes of the functions in `chain`. -/
def stepScheme : Nat → Scheme
  | 0 => polymorphic id ⟨1025⟩
  | i + 1 => polymorphic maybe ⟨if i = 0 then 1025 else if i % 4 = 0 then 1030 else 1025⟩

theorem infers_step (i : Nat) :
    Infers stepName stepScheme (i + 1) (function s!"step{i}" ["x"] (stepBody i)) := by
  have hne {w : String} (h : ¬ "step".toList <+: w.toList) := ne_numbered h i
  by_cases hzero : i = 0
  · subst hzero
    exact ⟨none, nofun, fun _ hn => .inl (declared_of_mem (mem_append_left ["map"] hn)),
      inferWith_some (hne (by decide))⟩
  by_cases hmap : i % 4 = 0
  · simp only [Infers, stepScheme, stepBody, if_neg hzero, if_pos hmap]
    refine ⟨some (0, polymorphic id ⟨0⟩), ?_, fun n hn => ?_,
      inferWith_map (hne (by decide)) (hne (by decide)) (hne (by decide))⟩
    · rintro _ ⟨⟩
      exact ⟨Nat.succ_pos i, standsFor_polymorphic (.inl rfl) _⟩
    · by_cases hid : n = "id"
      · exact .inr ⟨_, rfl, hid⟩
      · exact .inl (declared_of_mem ((mem_erase_of_ne (l := ["Some", "id", "map"]) hid).mpr hn))
  · obtain ⟨k, rfl⟩ := Nat.exists_eq_succ_of_ne_zero hzero
    have hx : s!"step{k}" ≠ "x" := (ne_numbered (by decide) k).symm
    simp only [Infers, stepScheme, stepBody, if_neg hzero, if_neg hmap]
    refine ⟨some (k + 1, polymorphic maybe ⟨0⟩), ?_, fun n hn => .inr ⟨_, rfl, ?_⟩,
      inferWith_call hx fun heq => ?_⟩
    · rintro _ ⟨⟩
      exact ⟨Nat.lt_succ_self _, standsFor_polymorphic (.inr rfl) _⟩
    · have hfree : n ∈ (if s!"step{k}" ∈ ["x"] then [] else [s!"step{k}"]) ++ [] :=
        Sorted.mem_ofList.mp hn
      rw [if_neg (by simpa using hx)] at hfree
      exact mem_singleton.mp hfree
    · exact absurd (numbered_injective "step" heq) (by simp)

/-- The functions of `chain`. -/
def steps : Family where
  name := stepName
  param
    | 0 => "y"
    | _ + 1 => "x"
  body
    | 0 => var "y"
    | i + 1 => stepBody i
  scheme := stepScheme
  injective
    | 0, 0, _ => rfl
    | 0, j + 1, h => absurd h (ne_numbered (by decide) j)
    | i + 1, 0, h => absurd h.symm (ne_numbered (by decide) i)
    | _ + 1, _ + 1, h => congrArg _ (numbered_injective "step" h)
  new
    | 0 => by decide +kernel
    | i + 1 => get?_numbered (by decide +kernel) i
  closed
    | 0 => closed_polymorphic (.inl rfl) _
    | i + 1 => closed_polymorphic (.inr rfl) _
  infers
    | 0 => ⟨none, nofun, forall_mem_nil _, inferWith_id⟩
    | i + 1 => infers_step i

/-! ## The modules -/

theorem render_ofScheme {σ : Scheme} {text : String}
    (h : (Signature.ofScheme "" σ here).render = text) (n : String) :
    (Signature.ofScheme n σ here).render = n ++ text := by
  simp [← h, Signature.render, Signature.ofScheme, toString, String.append_assoc]

theorem render_polymorphic_maybe (v : TypeVar) :
    (Signature.ofScheme "" (polymorphic maybe v) here).render =
      " : forall a. (a -> Maybe a pure)" := by
  cbv

theorem render_liftScheme :
    (Signature.ofScheme "" liftScheme here).render =
      " : forall a b. (a -> (b -> Maybe Int pure) pure)" := by
  cbv

theorem chain_eq (n : Nat) :
    chain n = generated (((List.range (max n 1)).map (· + 1) ++ [0]).map steps.definition) := by
  simp [chain, generated, declareFunction, Family.definition, steps, stepName]

theorem independent_eq (n : Nat) :
    independent n = generated ((List.range (max n 1)).map lifts.definition) := by
  simp [independent, generated, declareFunction, Family.definition, lifts]

/-- Generated modules of every size are checked without diagnostics, and all their functions are
polymorphic. -/
theorem generated_modules_check (n : Nat) (trace : Bool) :
    (((chain n).check trace).diagnostics = [] ∧ ∀ i < max n 1,
      (((chain n).check trace).signature? s!"step{i}").map (·.render) =
        some (s!"step{i}" ++ " : forall a. (a -> Maybe a pure)")) ∧
    ((independent n).check trace).diagnostics = [] ∧ ∀ i < max n 1,
      (((independent n).check trace).signature? s!"lift{i}").map (·.render) =
        some (s!"lift{i}" ++ " : forall a b. (a -> (b -> Maybe Int pure) pure)") := by
  have hperm : ((List.range (max n 1)).map (· + 1) ++ [0]).Perm (List.range (max n 1 + 1)) := by
    rw [range_succ_eq_map]
    exact perm_append_singleton 0 _
  have hsteps := steps.check_generated (hperm.nodup_iff.mpr nodup_range) (by
    simp only [hperm.mem_iff, mem_range]
    omega) trace
  have hdown : ∀ i ∈ List.range (max n 1), ∀ j < i, j ∈ List.range (max n 1) := by
    simp only [mem_range]
    omega
  have hlifts := lifts.check_generated nodup_range hdown trace
  rw [chain_eq, independent_eq]
  refine ⟨⟨hsteps.1, fun i hi => ?_⟩, hlifts.1, fun i hi => ?_⟩
  · have hmem : i + 1 ∈ (List.range (max n 1)).map (· + 1) ++ [0] :=
      hperm.mem_iff.mpr (mem_range.mpr (Nat.succ_lt_succ hi))
    exact (hsteps.2 (i + 1) hmem).trans
      (congrArg some (render_ofScheme (render_polymorphic_maybe _) _))
  · exact (hlifts.2 i (mem_range.mpr hi)).trans
      (congrArg some (render_ofScheme render_liftScheme _))

end Workload

end RowTyping
