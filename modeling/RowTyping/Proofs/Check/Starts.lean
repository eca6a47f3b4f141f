import RowTyping.Proofs.Check.Tracing
import RowTyping.Proofs.Check.Valid
import RowTyping.Proofs.Infer.Declared

/-!
# The states of the inferences of a module

The members of a component are inferred one after the other in valid states (`Component.BodiesRun`),
and the schemes that come out are valid for a new supply of the pool that is left. So a checker
stays valid for new supplies of its pool from wave to wave (`Checker.Poised`), and every component
and every declared definition is checked by a checker that is valid for the pool of the check
(`Run.Valid`).
-/

namespace RowTyping

open List

/-! ## Bodies -/

/-- Taking obligations and choices by patterns leaves a valid state. -/
theorem InferState.Valid.clear {reg : Registry} {st : InferState} (h : st.Valid reg) :
    ({ st with obligations := [], pending := [] } : InferState).Valid reg :=
  ⟨h.subst, h.env, h.reg⟩

namespace Infer

variable {reg : Registry} {st st' : InferState}

theorem definition_ok {d : Definition} {r : Typed} (hst : st.Valid reg)
    (h : definition reg d st = .ok r st') :
    Walks reg (visitsDefinition reg d st) st st' st.env.Over r.Over ∧ r.Usable st'.fresh := by
  by_cases hparams : d.params.isEmpty
  · simp only [definition, hparams, if_true] at h
    have hrun := sound reg d.body hst h
    rw [visitsDefinition, if_pos hparams]
    exact ⟨hrun.runs, hrun.usable⟩
  · simp only [definition, hparams, Bool.false_eq_true, if_false, bind_eq_ok, pure_eq_ok] at h
    obtain ⟨⟨ts, body⟩, _, hfunction, rfl, rfl⟩ := h
    have hrun := function_ok hst (sound reg d.body) hfunction
    rw [visitsDefinition, if_neg hparams]
    exact ⟨hrun.runs.imp (fun _ h => h) fun P _ _ hO =>
        ⟨Ty.over_fn.mpr ⟨hO.1, hO.2.1, hO.2.2⟩, Row.over_pure⟩,
      Ty.usable_fn.mpr ⟨hrun.usableParams, hrun.usable.type, hrun.usable.effects⟩, Row.usable_pure⟩

end Infer

/-- What a check finds is drawn from the pool it gets, and its schemes are valid for what it
leaves. -/
def Pool.Yields (pool : Pool) (found : Outcome × Pool) : Prop :=
  ∃ f, pool.ready.Reaches f ∧ found.2 = f.pool ∧ ∀ entry ∈ found.1.schemes, entry.2.1.Valid f

namespace Component

open Infer

variable {reg : Registry} {st st' : InferState} {d : Definition} {t : Ty} {k : Nat}
  {members : List (Definition × Ty)} {ms : List Member}

theorem inferBody_ok {u : Unit} (hst : st.Valid reg) (ht : t.Usable st.fresh)
    (h : inferBody reg d t st = .ok u st') :
    Walks reg (visitsDefinition reg d st) st st' (fun P => st.env.Over P ∧ t.Over P)
      fun _ => True := by
  simp only [inferBody, bind_eq_ok] at h
  obtain ⟨r, st₁, hdefinition, h⟩ := h
  obtain ⟨hruns₁, hr⟩ := definition_ok hst hdefinition
  -- a value is also required to have no effects
  obtain ⟨st₂, hruns₂, hunify⟩ : ∃ st₂, Runs st₁ st₂ r.Over (fun _ => True) ∧
      unify t r.type ⟨d.span, .recursion⟩ st₂ = .ok u st' := by
    by_cases hparams : d.params.isEmpty
    · simp only [hparams, if_true, bind_eq_ok] at h
      obtain ⟨_, st₂, hrows, hunify⟩ := h
      obtain ⟨hruns, -⟩ := unifyRows_ok hruns₁.valid Row.usable_pure hr.effects hrows
      exact ⟨st₂, hruns.imp (fun P hP => ⟨Row.over_pure, hP.2⟩) fun _ _ _ h => h, hunify⟩
    · simp only [hparams, Bool.false_eq_true, if_false] at h
      exact ⟨st₁, .refl hruns₁.valid fun _ _ => trivial, h⟩
  obtain ⟨hruns₃, -⟩ := unify_ok hruns₂.valid ((ht.later hruns₁.later).later hruns₂.later)
    (hr.type.later hruns₂.later) hunify
  have hfirst : Walks reg (visitsDefinition reg d st) st st₁
      (fun P => st.env.Over P ∧ t.Over P) r.Over :=
    hruns₁.imp (fun P hP => hP.1) fun _ _ _ h => h
  exact ((hfirst.andThen hruns₂ fun P _ hO => hO).andThen hruns₃ fun P hI hO => ⟨hI.2, hO.1.1⟩).imp
    (fun _ h => h) fun _ _ _ _ => trivial

theorem inferMember_ok {u : Unit} (h : inferBody reg d t st = .ok u st') :
    (inferBody reg d t *> takeMember d t) st =
      .ok ⟨d, t, st'.obligations, st'.pending⟩ { st' with obligations := [], pending := [] } := by
  simp only [SeqRight.seqRight, EStateM.seqRight, h]
  rfl

/-- The body of the first member is inferred, and the others follow. -/
theorem inferBodies_cons_ok (h : inferBodies reg k ((d, t) :: members) st = .ok ms st') :
    ∃ st₁ rest, inferBody reg d t st = .ok () st₁ ∧
      inferBodies reg (k + 1) members { st₁ with obligations := [], pending := [] } = .ok rest st' ∧
      ms = ⟨d, t, st₁.obligations, st₁.pending⟩ :: rest := by
  rw [inferBodies] at h
  obtain ⟨member, st₂, hmember, h⟩ := bind_eq_ok.mp h
  obtain ⟨rest, _, hrest, hms⟩ := bind_eq_ok.mp h
  obtain ⟨rfl, rfl⟩ := pure_eq_ok.mp hms
  rcases hbody : inferBody reg d t st with ⟨u, st₁⟩ | ⟨e, st₁⟩
  · simp only [EStateM.run, inferMember_ok hbody, EStateM.Result.ok.injEq] at hmember
    obtain ⟨rfl, rfl⟩ := hmember
    exact ⟨st₁, rest, rfl, hrest, rfl⟩
  · have hrun : (inferBody reg d t *> takeMember d t) st = .error e st₁ := by
      simp only [SeqRight.seqRight, EStateM.seqRight, hbody]
    simp only [EStateM.run, hrun, reduceCtorEq] at hmember

/-- The inference of bodies one after the other. -/
structure BodiesRun (reg : Registry) (members : List (Definition × Ty)) (st st' : InferState)
    (ms : List Member) : Prop where
  valid : st'.Valid reg
  keeps : st.subst.Extends st'.subst
  later : st.fresh.Later st'.fresh
  usable : ∀ m ∈ ms, m.type.Usable st'.fresh
  bodies : ∀ s ∈ starts reg members st, ∃ t s₁, ∃ m ∈ ms, s.2.Valid reg ∧ t.Usable s.2.fresh ∧
    inferBody reg s.1 t s.2 = .ok () s₁ ∧ m.obligations = s₁.obligations ∧
    s₁.subst.Extends st'.subst

theorem inferBodies_ok (hst : st.Valid reg) (hts : ∀ m ∈ members, m.2.Usable st.fresh)
    (h : inferBodies reg k members st = .ok ms st') : BodiesRun reg members st st' ms := by
  induction members generalizing k st ms with
  | nil =>
    obtain ⟨rfl, rfl⟩ := pure_eq_ok.mp h
    exact ⟨hst, .refl _, .refl _, forall_mem_nil _, forall_mem_nil _⟩
  | cons m members ih =>
    obtain ⟨d, t⟩ := m
    rw [forall_mem_cons] at hts
    obtain ⟨st₁, rest, hbody, hrest, rfl⟩ := inferBodies_cons_ok h
    have hruns := inferBody_ok hst hts.1 hbody
    have htail := ih (hruns.validState hst).clear (fun m hm => (hts.2 m hm).later hruns.later) hrest
    refine ⟨htail.valid, hruns.keeps.trans htail.keeps, hruns.later.trans htail.later,
      forall_mem_cons.mpr ⟨(hts.1.later hruns.later).later htail.later, htail.usable⟩, ?_⟩
    rw [starts, inferMember_ok hbody]
    refine forall_mem_cons.mpr ⟨⟨t, st₁, _, .head _, hst, hts.1, hbody, rfl,
      htail.keeps⟩, fun s hs => ?_⟩
    obtain ⟨t', s₁, m, hm, hbody⟩ := htail.bodies s hs
    exact ⟨t', s₁, m, .tail _ hm, hbody⟩

theorem foldl_bind_mono (members : List (Definition × Ty)) (env : Env) :
    members.foldl (fun env m => env.bind m.1.name.node (.mono m.2)) env =
      env.bindAll (members.map fun m => (m.1.name.node, m.2)) := by
  rw [Env.bindAll, foldl_map]

/-- Members start with one fresh type each. -/
theorem bindMembers_ok {ds : List Definition} (hst : st.Valid reg)
    (h : bindMembers ds st = .ok members st') :
    st'.Valid reg ∧ st'.subst = st.subst ∧ ∀ m ∈ members, m.2.Usable st'.fresh := by
  simp only [bindMembers, bind_eq_ok, modify_eq_ok, pure_eq_ok] at h
  obtain ⟨types, st₁, htypes, _, _, rfl, rfl, rfl⟩ := h
  obtain ⟨hdraws, -, hfresh⟩ := freshTypes_ok hst.subst.distinct htypes
  have husable : ∀ m ∈ ds.zip types, m.2.Usable st₁.fresh := fun m hm =>
    usable_of_handedOut (hfresh m.2 (of_mem_zip hm).2)
  refine ⟨⟨hdraws.valid hst.subst, ?_, hst.reg.later hdraws.later⟩, hdraws.subst, husable⟩
  change Env.Usable ((ds.zip types).foldl _ st₁.env.push) st₁.fresh
  rw [foldl_bind_mono, hdraws.env]
  exact (hst.env.later hdraws.later).push.bindAll (forall_mem_map.mpr husable)

/-! ## Components -/

theorem spends_inferBody (d : Definition) (t : Ty) : OnlyDraws (inferBody reg d t) :=
  (stepwise_inferBody reg d t).onlyDraws

theorem spends_inferBodies (reg : Registry) (k : Nat) (members : List (Definition × Ty)) :
    Spends InferState.fresh (inferBodies reg k members) := by
  induction members generalizing k with
  | nil => exact .pure _
  | cons m members ih =>
    obtain ⟨d, t⟩ := m
    rw [inferBodies]
    refine Spends.bind (fun st => ?_) fun _ => (ih (k + 1)).bind fun _ => .pure _
    have htake (u : Unit) : OnlyDraws (takeMember d t) := .modifyGet fun _ => .refl
    have hbody : st.fresh.Reaches (leftState ((inferBody reg d t *> takeMember d t) st)).fresh :=
      (spends_inferBody d t).bind htake st
    rcases hrun : (inferBody reg d t *> takeMember d t) st with ⟨m, st'⟩ | ⟨e, st'⟩
    · rw [hrun] at hbody
      simp only [EStateM.run, hrun]
      exact hbody
    · rw [hrun] at hbody
      simp only [EStateM.run, hrun]
      exact hbody

theorem spends_bindMembers (ds : List Definition) : OnlyDraws (bindMembers ds) := by
  have hfresh : Stepwise [] [] [] (freshTypes ds) := .freshTypes ds
  exact hfresh.onlyDraws.bind fun _ => Spends.bind (.modify fun _ => .refl) fun _ => .pure _

theorem valid_of_mem_generalizeAll {residual : List (List Obligation)}
    {schemes : List (String × Scheme × Span)}
    (hst : st.subst.Valid st.fresh) (hms : ∀ m ∈ ms, m.type.Usable st.fresh)
    (h : generalizeAll st residual ms = .ok schemes) :
    ∀ entry ∈ schemes, entry.2.1.Valid st.fresh := by
  intro entry hentry
  obtain ⟨m, hm, _, _, hgen⟩ := of_mem_generalizeAll h entry hentry
  obtain ⟨_, hσ⟩ := generalize_ok hgen
  exact ⟨hσ.usable hst (hms m hm),
    fun x hx => hx.2 ((Scheme.bindsAll_of_generalize hgen).type x hx.1)⟩

theorem conclude_ok {events : BindingEvents} {o : Outcome} (h : conclude reg st events ms = .ok o) :
    ∃ solved, solveAll reg st.subst ms = .ok solved ∧
      generalizeAll st (solved.map (·.residual)) ms = .ok o.schemes := by
  simp only [conclude, except_bind_eq_ok] at h
  obtain ⟨solved, hsolved, schemes, hschemes, h⟩ := h
  cases h
  exact ⟨solved, hsolved, hschemes⟩

/-- A component draws from its pool and finds schemes that are valid for what it leaves. -/
theorem infer_valid {c : Checker} {pool : Pool} (hpool : pool.Spaced) (hc : c.Valid pool.ready)
    (ds : List Definition) : pool.Yields (infer c.registry c.env pool ds) := by
  have hstart := (hc.wellFormed (Fresh.pooled_ready hpool).distinct).toValid
  have hbind := spends_bindMembers ds (InferState.start pool.ready c.env)
  rw [infer]
  rcases hmembers : bindMembers ds (InferState.start pool.ready c.env) with ⟨members, st⟩ | ⟨e, st⟩
  · rw [hmembers] at hbind
    obtain ⟨hst, -, hts⟩ := bindMembers_ok hstart hmembers
    have hspends := spends_inferBodies c.registry 0 members st
    rw [Pool.ready] at hmembers
    rcases hbodies : inferBodies c.registry 0 members st with ⟨ms, st'⟩ | ⟨b, st'⟩
    · rw [hbodies] at hspends
      have hrun := inferBodies_ok hst hts hbodies
      simp only [EStateM.run, hmembers, hbodies]
      split
      · rename_i o ho
        obtain ⟨_, -, hschemes⟩ := conclude_ok ho
        exact ⟨st'.fresh, hbind.trans hspends, rfl,
          valid_of_mem_generalizeAll hrun.valid.subst hrun.usable hschemes⟩
      · exact ⟨st'.fresh, hbind.trans hspends, rfl, forall_mem_nil _⟩
    · rw [hbodies] at hspends
      simp only [EStateM.run, hmembers, hbodies]
      exact ⟨st'.fresh, hbind.trans hspends, rfl, forall_mem_nil _⟩
  · rw [hmembers] at hbind
    rw [Pool.ready] at hmembers
    simp only [EStateM.run, hmembers]
    exact ⟨st.fresh, hbind, rfl, forall_mem_nil _⟩

end Component

/-- The check of a declared definition draws from its pool and may give the declared scheme. -/
theorem DeclaredTask.check_valid {pool : Pool} {task : DeclaredTask}
    (htask : task.scheme.Valid pool.ready) (reg : Registry) (env : Env) :
    pool.Yields (task.check reg env pool) := by
  have hspends := (Infer.Stepwise.checkDeclared reg task.definition task.scheme
    task.allowed).onlyDraws (InferState.start pool.ready env)
  rw [check]
  rcases hrun : Infer.checkDeclared reg task.definition task.scheme task.allowed
    (InferState.start pool.ready env) with ⟨resolved, st⟩ | ⟨e, st⟩
  · rw [hrun] at hspends
    rw [Pool.ready] at hrun
    simp only [EStateM.run, hrun]
    refine ⟨st.fresh, hspends, rfl, fun entry hentry => ?_⟩
    split at hentry
    · rw [mem_singleton.mp hentry]
      exact htask.later hspends.later
    · cases hentry
  · rw [hrun] at hspends
    rw [Pool.ready] at hrun
    simp only [EStateM.run, hrun]
    exact ⟨st.fresh, hspends, rfl, forall_mem_nil _⟩

/-! ## Waves -/

/-- The check is made by a checker that is valid for the pool, with the given registry. -/
structure Run.Valid {α : Type} (reg : Registry) (r : Run α) : Prop where
  registry : r.checker.registry = reg
  spaced : r.pool.Spaced
  valid : r.checker.Valid r.pool.ready

namespace Checker

variable {c c' : Checker} {f : Fresh}

/-- The checker is valid for new supplies of its pool. -/
structure Poised (c : Checker) : Prop where
  spaced : c.fresh.pool.Spaced
  valid : c.Valid c.fresh.pool.ready

theorem Ready.poised (h : c.Ready) : c.Poised :=
  ⟨h.pooled.spaced, h.valid.later h.pooled.later_ready⟩

/-- Whether events are recorded makes no difference to the variables that are drawn. -/
theorem Poised.setTracing (h : c.Poised) (trace : Bool) : (c.setTracing trace).Poised := by
  have hlater : c.fresh.pool.ready.Later (c.setTracing trace).fresh.pool.ready :=
    ⟨fun {x} hx => by cases x <;> exact hx, fun h => ⟨h.types, h.effects⟩⟩
  have hvalid : c.Valid (c.setTracing trace).fresh.pool.ready := h.valid.later hlater
  exact ⟨⟨h.spaced.1, h.spaced.2⟩, hvalid.congr rfl⟩

/-- What is drawn from a new supply of a pool leaves a pool for other supplies. -/
theorem later_of_reaches {pool : Pool} (hpool : pool.Spaced) (h : pool.ready.Reaches f) :
    f.pool.Spaced ∧ f.Later f.pool.ready ∧ pool.ready.Later f.pool.ready := by
  have hf := h.pooled (Fresh.pooled_ready hpool)
  exact ⟨hf.spaced, hf.later_ready, h.later.trans hf.later_ready⟩

/-- Checks that run in turn get pools for which the checker is valid, and their schemes are valid
for the pool that is left. -/
theorem Valid.runAll {α : Type} {check : Registry → Env → Pool → α → Outcome × Pool} {as : List α}
    {pool : Pool}
    (hcheck : ∀ pool : Pool, pool.Spaced → c.Valid pool.ready → ∀ a ∈ as,
      pool.Yields (check c.registry c.env pool a))
    (hpool : pool.Spaced) (hc : c.Valid pool.ready) :
    let (outcomes, left) := runAll (check c.registry c.env) pool as
    (∀ r ∈ c.runs check pool as, r.Valid c.registry) ∧ left.Spaced ∧ pool.ready.Later left.ready ∧
      ∀ o ∈ outcomes, ∀ entry ∈ o.schemes, entry.2.1.Valid left.ready := by
  induction as generalizing pool with
  | nil => exact ⟨forall_mem_nil _, hpool, .refl _, forall_mem_nil _⟩
  | cons a as ih =>
    obtain ⟨f, hreaches, hleft, hschemes⟩ := hcheck pool hpool hc a (.head _)
    obtain ⟨hspaced, hready, hlater⟩ := later_of_reaches hpool hreaches
    rw [← hleft] at hspaced hready hlater
    obtain ⟨hruns, hspaced', hlater', hrest⟩ := ih (fun pool hpool hc a ha =>
      hcheck pool hpool hc a (.tail _ ha)) hspaced (hc.later hlater)
    exact ⟨forall_mem_cons.mpr ⟨⟨rfl, hpool, hc⟩, hruns⟩, hspaced', hlater.trans hlater',
      forall_mem_cons.mpr
        ⟨fun entry hentry => (hschemes entry hentry).later (hready.trans hlater'), hrest⟩⟩

theorem Blocks.valid {names : List String} (h : Blocks names c c') (hc : c.Valid f) :
    c'.Valid f := by
  rw [h.rest]
  exact hc.congr rfl

theorem Valid.absorbOutcome (h : c.Valid f) (isInferred : Bool) {o : Outcome}
    (ho : ∀ entry ∈ o.schemes, entry.2.1.Valid f) : (absorb isInferred c o).Valid f := by
  have hschemes : (o.schemes.foldl (absorbScheme isInferred) c).Valid f := by
    refine foldl_induction (P := fun c : Checker => c.Valid f) h fun c hc entry hentry => ?_
    rw [absorbScheme]
    split
    · have hadd : (c.addSignature entry.1 entry.2.1 entry.2.2).Valid f := hc.congr rfl
      exact hadd.bindGlobal entry.1 (ho entry hentry)
    · exact hc.congr rfl
  rw [absorb, foldl_bindingFailed]
  exact hschemes.congr rfl

theorem absorb_keeps (isInferred : Bool) (c : Checker) (o : Outcome) :
    (absorb isInferred c o).fresh = c.fresh ∧ (absorb isInferred c o).registry = c.registry := by
  have hschemes := foldl_induction (P := fun c' => c'.fresh = c.fresh ∧ c'.registry = c.registry)
    (f := absorbScheme isInferred) (l := o.schemes) (b := c) ⟨rfl, rfl⟩ fun c' hc' entry _ => by
      cases isInferred <;> exact hc'
  rw [absorb, foldl_bindingFailed]
  exact hschemes

/-- A checker stays poised when it leaves out bindings that depend on failed ones and checks the
others, each with a pool for which it is valid. -/
theorem Poised.after {α : Type} {check : Registry → Env → Pool → α → Outcome × Pool} {as : List α}
    {names : List String} (h : c.Poised) (hblocks : Blocks names c c')
    (hcheck : ∀ pool : Pool, pool.Spaced → c'.Valid pool.ready → ∀ a ∈ as,
      pool.Yields (check c'.registry c'.env pool a)) (isInferred : Bool) :
    (afterRuns check isInferred c' as).Poised ∧
      ∀ r ∈ c'.runs check c'.fresh.pool as, r.Valid c.registry := by
  have hfresh : c'.fresh = c.fresh := by rw [hblocks.rest]
  have hregistry : c'.registry = c.registry := by rw [hblocks.rest]
  have hvalid : c'.Valid c'.fresh.pool.ready := hfresh.symm ▸ hblocks.valid h.valid
  obtain ⟨hruns, hspaced, hlater, hschemes⟩ := hvalid.runAll hcheck (hfresh ▸ h.spaced)
  have hafter := foldl_induction (l := (runAll (check c'.registry c'.env) c'.fresh.pool as).1)
    (b := c'.setPool (runAll (check c'.registry c'.env) c'.fresh.pool as).2)
    (f := absorb isInferred)
    (P := fun d : Checker =>
      d.Valid (runAll (check c'.registry c'.env) c'.fresh.pool as).2.ready ∧
      d.fresh.pool = (runAll (check c'.registry c'.env) c'.fresh.pool as).2)
    ⟨(hvalid.later hlater).congr rfl, rfl⟩ fun d hd o ho =>
      ⟨hd.1.absorbOutcome isInferred (hschemes o ho), (absorb_keeps isInferred d o).1 ▸ hd.2⟩
  exact ⟨⟨hafter.2.symm ▸ hspaced, hafter.2.symm ▸ hafter.1⟩, hregistry ▸ hruns⟩

/-- A wave leaves a checker that is ready for the next. -/
theorem Poised.inferWave (h : c.Poised) (wave : List (List Definition)) :
    (c.inferWave wave).Poised ∧ ∀ r ∈ c.waveRuns wave, r.Valid c.registry := by
  obtain ⟨_, -, hblocks, -⟩ := c.runnableComponents_spec wave
  exact h.after hblocks (fun _ hpool hc ds _ => Component.infer_valid hpool hc ds) true

/-- Components are checked by checkers that are valid for their pools. -/
theorem Poised.componentRuns (h : c.Poised) (waves : List (List (List Definition))) :
    (waves.foldl Checker.inferWave c).Poised ∧ ∀ r ∈ c.componentRuns waves, r.Valid c.registry := by
  induction waves generalizing c with
  | nil => exact ⟨h, forall_mem_nil _⟩
  | cons wave rest ih =>
    obtain ⟨hpoised, hwave⟩ := h.inferWave wave
    obtain ⟨hpoised', hrest⟩ := ih hpoised
    obtain ⟨_, _, -, hsettled, -⟩ := c.settled_inferWave wave
    rw [hsettled.registry] at hrest
    exact ⟨hpoised', forall_mem_append.mpr ⟨hwave, hrest⟩⟩

theorem Poised.inferComponents (h : c.Poised) : c.inferComponents.Poised ∧
    ∀ r ∈ c.componentRuns (wavesOf c.inferred), r.Valid c.registry :=
  h.componentRuns _

/-- Declared definitions are checked by a checker that is valid for the pools. -/
theorem Poised.taskRuns (h : c.Poised) :
    ∀ r ∈ c.taskRuns, r.Valid c.registry ∧ r.subject ∈ c.declared ∧
      r.subject ∈ r.checker.declared := by
  obtain ⟨blocked, hperm, hblocks, -⟩ := c.runnableTasks_spec c.declared
  have hdeclared : (c.runnableTasks c.declared).2.declared = c.declared := by rw [hblocks.rest]
  have hmem {task : DeclaredTask} (htask : task ∈ (c.runnableTasks c.declared).1) :
      task ∈ c.declared :=
    hperm.mem_iff.mp (mem_append_left _ htask)
  obtain ⟨-, hruns⟩ := h.after hblocks
    (fun _ _ hc task htask => DeclaredTask.check_valid
      (hc.declared task (hdeclared.symm ▸ hmem htask)).toValid _ _) false
  intro r hr
  obtain ⟨hchecker, htask⟩ := of_mem_runs hr
  rw [hchecker, hdeclared]
  exact ⟨hruns r hr, hmem htask, hmem htask⟩

end Checker

end RowTyping
