import RowTyping.Proofs.Check.Inferences
import RowTyping.Proofs.Check.Recorded
import RowTyping.Proofs.Check.Tracing

/-!
# Declaration order

A body is inferred in an environment that binds every definition of the module it refers to,
wherever that definition stands. If one of them failed, the body is not inferred, and its binding is
reported to depend on a failed one. So no definition of a module is ever reported as unbound.
-/

namespace RowTyping

open List

variable {n : String} {reg : Registry} {env Γ : Env} {pool : Pool}

theorem Env.isSome_get?_of_hasGlobal (h : env.hasGlobal n) : (env.get? n).isSome := by
  rw [Env.get?, Option.isSome_or]
  rw [Env.hasGlobal, Dict.contains] at h
  simp [h]

/-! ## Outcomes -/

/-- The bodies are inferred where the name is bound if they refer to it, or they are reported to
depend on a failed binding. No diagnostic says that the name is unbound. -/
structure Outcome.Treats (n : String) (bodies : List (String × Definition)) (is : List Inference)
    (o : Outcome) : Prop where
  quiet : ∀ diag ∈ o.diagnostics, Spares n diag.message
  bound : ∀ i ∈ is, n ∈ i.definition.freeNames → (i.start.env.get? n).isSome
  covered : ∀ b ∈ bodies, (∃ i ∈ is, i.label = b.1 ∧ i.definition = b.2) ∨
    ∃ diag ∈ o.diagnostics, diag.ReportsDependency b.1

theorem spares_warning? {cases : PendingCases} {s : Subst} {binding : String} {diag : Diagnostic}
    (h : cases.warning? reg s binding = some diag) : Spares n diag.message := by
  rw [PendingCases.warning?] at h
  split at h
  · cases h
  · cases h
    exact spares_of_start

/-- The diagnostics of an outcome are quiet if its failures are. -/
theorem Outcome.quiet_of_failures {o : Outcome} (hfailures : ∀ f ∈ o.failures, Spares n f.2.message)
    (hwarnings : ∀ diag ∈ o.warnings, Spares n diag.message) :
    ∀ diag ∈ o.diagnostics, Spares n diag.message := by
  intro diag hdiag
  rcases mem_append.mp hdiag with hdiag | hdiag
  · obtain ⟨f, hf, rfl⟩ := mem_map.mp hdiag
    exact hfailures f hf
  · exact hwarnings diag hdiag

namespace Component

variable {st : InferState} {members : List (Definition × Ty)} {events : BindingEvents}
  {ds : List Definition}

theorem spares_takeMember (reg : Registry) {d : Definition}
    (hn : n ∈ d.freeNames → (Γ.get? n).isSome) (t : Ty) (hst : st.env = Γ) :
    Ends (inferBody reg d t *> takeMember d t) st (fun _ st' => st'.env = Γ)
      fun e => Spares n e.message := by
  rw [seqRight_eq_bind]
  have hbody := (stepwise_inferBody reg d t).spares (fun h => hn (Sorted.mem_ofList.mpr h)) hst
  exact hbody.bind fun _ _ hst' => .modifyGet hst'

/-- All bodies start in the environment of the component. -/
theorem env_of_mem_starts (reg : Registry) (hst : st.env = Γ)
    (hn : ∀ m ∈ members, n ∈ m.1.freeNames → (Γ.get? n).isSome) :
    ∀ p ∈ starts reg members st, p.1 ∈ members.map (·.1) ∧ p.2.env = Γ := by
  induction members generalizing st with
  | nil => exact nofun
  | cons m rest ih =>
    obtain ⟨d, t⟩ := m
    obtain ⟨hd, hrest⟩ := forall_mem_cons.mp hn
    have hbody := spares_takeMember reg hd t hst
    refine forall_mem_cons.mpr ⟨⟨.head _, hst⟩, fun p hp => ?_⟩
    rcases hrun : (inferBody reg d t *> takeMember d t) st with ⟨m, st'⟩ | ⟨e, st'⟩
    · simp only [hrun] at hp
      obtain ⟨hmem, henv⟩ := ih (hbody.ok hrun) hrest p hp
      exact ⟨.tail _ hmem, henv⟩
    · simp only [hrun] at hp
      cases hp

/-- Either all bodies are inferred, or all up to the one that is blamed. -/
theorem starts_inferBodies (reg : Registry) (hst : st.env = Γ)
    (hn : ∀ m ∈ members, n ∈ m.1.freeNames → (Γ.get? n).isSome) (k : Nat) :
    Ends (inferBodies reg k members) st
      (fun _ _ => (starts reg members st).map (·.1) = members.map (·.1)) fun b =>
        Spares n b.error.message ∧ ∃ j, b.member = k + j ∧
          (starts reg members st).map (·.1) = (members.map (·.1)).take (j + 1) := by
  induction members generalizing st k with
  | nil => exact .pure rfl
  | cons m rest ih =>
    obtain ⟨d, t⟩ := m
    obtain ⟨hd, hrest⟩ := forall_mem_cons.mp hn
    have hbody := spares_takeMember reg hd t hst
    rcases hrun : (inferBody reg d t *> takeMember d t) st with ⟨m, st'⟩ | ⟨e, st'⟩
    · have hstarts : starts reg ((d, t) :: rest) st = (d, st) :: starts reg rest st' := by
        simp only [starts, hrun]
      have hih := ih (hbody.ok hrun) hrest (k + 1)
      refine Ends.bind (Q := fun _ st₁ => st₁ = st') (by simp [Ends, EStateM.run, hrun])
        fun _ _ hst' => ?_
      rw [hst', hstarts]
      refine (hih.imp (fun _ _ h => ?_) fun b hb => ?_).bind fun _ _ h => .pure h
      · rw [map_cons, h, map_cons]
      · obtain ⟨hspares, j, hj, htake⟩ := hb
        exact ⟨hspares, j + 1, by omega, by rw [map_cons, htake, map_cons, take_succ_cons]⟩
    · have hstarts : starts reg ((d, t) :: rest) st = [(d, st)] := by simp only [starts, hrun]
      refine Ends.bind (Q := fun _ _ => False) ?_ fun _ _ h => h.elim
      simp only [Ends, EStateM.run, hrun, hstarts]
      exact ⟨hbody.error hrun, 0, rfl, rfl⟩

/-- The environment of a component binds its members and all names that had a type before. -/
theorem isSome_get?_bindMembers (h : n ∈ namesOf (members.map (·.1)) ∨ (Γ.get? n).isSome) :
    ((members.foldl (fun env m => env.bind m.1.name.node (.mono m.2)) Γ).get? n).isSome := by
  induction members generalizing Γ with
  | nil => exact h.resolve_left not_mem_nil
  | cons m rest ih =>
    refine ih ?_
    rw [Env.get?_bind]
    split
    · exact .inr rfl
    · rename_i hne
      exact h.imp_left fun h => (mem_cons.mp h).resolve_left hne

theorem warnings_conclude {ms : List Member} {o : Outcome} (h : conclude reg st events ms = .ok o) :
    ∀ diag ∈ o.warnings, Spares n diag.message := by
  rw [conclude, except_bind_eq_ok] at h
  obtain ⟨solved, -, h⟩ := h
  obtain ⟨schemes, hschemes, h⟩ := except_bind_eq_ok.mp h
  cases h
  intro diag hdiag
  obtain ⟨m, -, hdiag⟩ := mem_flatMap.mp hdiag
  obtain ⟨cases, -, hwarning⟩ := mem_filterMap.mp hdiag
  exact spares_warning? hwarning

/-- If one member is blamed for an error, the others depend on it. -/
theorem reportsDependency_failure {b : Blame} {j : Nat} (hj : j < ds.length) (hne : j ≠ b.member) :
    ∃ diag ∈ (failure ds events b).diagnostics, diag.ReportsDependency ds[j].name.node := by
  have hmem : ds[j] ∈ ds.eraseIdx b.member :=
    mem_eraseIdx_iff_getElem.mpr ⟨j, hj, hne, rfl⟩
  refine ⟨_, mem_append_left _ (mem_map_of_mem (mem_cons_of_mem _
    (mem_map_of_mem hmem))), _, _, rfl⟩

theorem quiet_failure {b : Blame} (hb : Spares n b.error.message) :
    ∀ diag ∈ (failure ds events b).diagnostics, Spares n diag.message := by
  refine Outcome.quiet_of_failures (forall_mem_cons.mpr ⟨hb, fun f hf => ?_⟩) (forall_mem_nil _)
  obtain ⟨d, -, rfl⟩ := mem_map.mp hf
  exact TypingError.SpeaksPlainly.spares trivial

/-- The bodies of a component, under the names of their definitions. -/
def bodies (ds : List Definition) : List (String × Definition) :=
  ds.map fun d => (d.name.node, d)

theorem bodies_map_fst (ds : List Definition) : (bodies ds).map (·.1) = namesOf ds :=
  map_map

/-- A component is inferred where every definition it refers to is bound. -/
theorem treats_infer (hn : ∀ d ∈ ds, n ∈ d.freeNames → n ∈ namesOf ds ∨ env.hasGlobal n) :
    (infer reg env pool ds).1.Treats n (bodies ds) (inferences reg env pool ds) := by
  obtain ⟨ts, st, hbind, hlen, henv⟩ :=
    bindMembers_spec ds (InferState.start { supply := .pooled, pool } env)
  have hfst : (ds.zip ts).map (·.1) = ds := map_fst_zip hlen.ge
  have hbound : ∀ m ∈ ds.zip ts, n ∈ m.1.freeNames → (st.env.get? n).isSome := by
    intro m hm hmem
    have hd : m.1 ∈ ds := hfst ▸ mem_map_of_mem hm
    rw [henv]
    refine isSome_get?_bindMembers ((hfst.symm ▸ hn _ hd hmem).imp_right fun h => ?_)
    rw [Env.get?_push]
    exact Env.isSome_get?_of_hasGlobal h
  have hstarts := env_of_mem_starts reg rfl hbound
  have hbodies := starts_inferBodies reg rfl hbound 0
  rw [hfst] at hbodies
  have hinferences : inferences reg env pool ds = (starts reg (ds.zip ts) st).map fun p =>
      { label := p.1.name.node, definition := p.1, start := p.2
        final := finalState reg (ds.zip ts) st } := by simp only [inferences, hbind]
  -- a member whose body was looked at has its inference
  have hcovered {d : Definition} (hd : d ∈ (starts reg (ds.zip ts) st).map (·.1)) :
      ∃ i ∈ inferences reg env pool ds, i.label = d.name.node ∧ i.definition = d := by
    obtain ⟨p, hp, rfl⟩ := mem_map.mp hd
    rw [hinferences]
    exact ⟨_, mem_map_of_mem hp, rfl, rfl⟩
  refine ⟨?_, fun i hi hmem => ?_, fun b hb => ?_⟩
  · simp only [infer, EStateM.run, hbind]
    split
    · rename_i b st hrun
      exact quiet_failure (hbodies.error hrun).1
    · split
      · rename_i o ho
        have hfailures := (names_conclude ho).2
        exact Outcome.quiet_of_failures (by simp [hfailures]) (warnings_conclude ho)
      · rename_i b hb
        exact quiet_failure (blame_conclude hb).2.spares
  · rw [hinferences] at hi
    obtain ⟨p, hp, rfl⟩ := mem_map.mp hi
    obtain ⟨hmember, hpenv⟩ := hstarts p hp
    obtain ⟨m, hm, hmp⟩ := mem_map.mp hmember
    rw [hpenv]
    exact hbound m hm (hmp ▸ hmem)
  · obtain ⟨d, hd, rfl⟩ := mem_map.mp hb
    rcases hrun : inferBodies reg 0 (ds.zip ts) st with ⟨ms, st₁⟩ | ⟨b, st₁⟩
    · exact .inl (hcovered ((hbodies.ok hrun).symm ▸ hd))
    · obtain ⟨-, j, hj, htake⟩ := hbodies.error hrun
      obtain ⟨k, hk, rfl⟩ := getElem_of_mem hd
      by_cases hle : k ≤ j
      · refine .inl (hcovered ?_)
        rw [htake]
        exact mem_take_iff_getElem.mpr ⟨k, by omega, rfl⟩
      · right
        simp only [infer, EStateM.run, hbind, hrun]
        exact reportsDependency_failure hk (by omega)

end Component

/-- A definition with a signature is checked where every definition it refers to is bound. -/
theorem DeclaredTask.treats_check {task : DeclaredTask}
    (hn : n ∈ task.definition.freeNames → env.hasGlobal n) :
    (task.check reg env pool).1.Treats n [(task.label, task.definition)]
      [task.inference reg env pool] := by
  have hbound : n ∈ task.definition.freeNames → (env.get? n).isSome := fun h =>
    Env.isSome_get?_of_hasGlobal (hn h)
  have hstart : (InferState.start { supply := .pooled, pool } env).env = env := rfl
  have hcheck := (Infer.Stepwise.checkDeclared reg task.definition task.scheme task.allowed).spares
    (fun h => hbound (Sorted.mem_ofList.mpr h)) hstart
  refine ⟨?_, fun i hi hmem => ?_, fun b hb => .inl ⟨_, mem_singleton_self _, ?_⟩⟩
  · rcases hrun : Infer.checkDeclared reg task.definition task.scheme task.allowed
      (InferState.start { supply := .pooled, pool } env) with ⟨resolved, st⟩ | ⟨e, st⟩
    · simp only [check, EStateM.run, hrun]
      refine Outcome.quiet_of_failures (forall_mem_nil _) fun diag hdiag => ?_
      obtain ⟨cases, -, hwarning⟩ := mem_filterMap.mp hdiag
      exact spares_warning? hwarning
    · simp only [check, EStateM.run, hrun]
      refine Outcome.quiet_of_failures (forall_mem_singleton.mpr (hcheck.error hrun))
        (forall_mem_nil _)
  · rw [mem_singleton.mp hi] at hmem ⊢
    exact hbound hmem
  · rw [mem_singleton.mp hb]
    exact ⟨rfl, rfl⟩

namespace Checker

variable {c c' c'' : Checker}

/-! ## Steps of the checker -/

/-- On the way between two states the bodies were inferred where the name is bound if they refer to
it, or they were reported to depend on a failed binding. No new diagnostic says that the name is
unbound. -/
structure Treats (n : String) (bodies : List (String × Definition)) (is : List Inference)
    (c c' : Checker) : Prop where
  quiet : ∀ diag ∈ c'.diagnostics, diag ∈ c.diagnostics ∨ Spares n diag.message
  kept : ∀ diag ∈ c.diagnostics, diag ∈ c'.diagnostics
  bound : ∀ i ∈ is, n ∈ i.definition.freeNames → (i.start.env.get? n).isSome
  covered : ∀ b ∈ bodies, (∃ i ∈ is, i.label = b.1 ∧ i.definition = b.2) ∨
    ∃ diag ∈ c'.diagnostics, diag.ReportsDependency b.1

theorem Treats.refl (c : Checker) : Treats n [] [] c c :=
  ⟨fun _ h => .inl h, fun _ h => h, forall_mem_nil _, forall_mem_nil _⟩

theorem Treats.trans {bodies bodies' : List (String × Definition)} {is is' : List Inference}
    (h : Treats n bodies is c c') (h' : Treats n bodies' is' c' c'') :
    Treats n (bodies ++ bodies') (is ++ is') c c'' where
  quiet diag hdiag := (h'.quiet diag hdiag).elim (h.quiet diag) .inr
  kept diag hdiag := h'.kept diag (h.kept diag hdiag)
  bound i hi := (mem_append.mp hi).elim (h.bound i) (h'.bound i)
  covered b hb := by
    rcases mem_append.mp hb with hb | hb
    · rcases h.covered b hb with ⟨i, hi, hib⟩ | ⟨diag, hdiag, hreports⟩
      · exact .inl ⟨i, mem_append_left _ hi, hib⟩
      · exact .inr ⟨diag, h'.kept diag hdiag, hreports⟩
    · rcases h'.covered b hb with ⟨i, hi, hib⟩ | hdiag
      · exact .inl ⟨i, mem_append_right _ hi, hib⟩
      · exact .inr hdiag

theorem spares_reportsDependency {diag : Diagnostic} {name : String}
    (h : diag.ReportsDependency name) :
    Spares n diag.message := by
  obtain ⟨dependency, span, rfl⟩ := h
  exact TypingError.SpeaksPlainly.spares (e := .dependencyFailed dependency span) trivial

theorem Blocks.treats {bodies : List (String × Definition)} (h : Blocks (bodies.map (·.1)) c c') :
    Treats n bodies [] c c' where
  quiet diag hdiag := (h.new diag hdiag).imp_right
    fun ⟨_, hreports⟩ => spares_reportsDependency hreports
  kept := h.kept
  bound := forall_mem_nil _
  covered b hb := .inr (h.reported b.1 (mem_map_of_mem hb))

theorem Treats.of_mem {bodies bodies' : List (String × Definition)} {is : List Inference}
    (h : Treats n bodies is c c') (hmem : ∀ b ∈ bodies', b ∈ bodies) : Treats n bodies' is c c' :=
  ⟨h.quiet, h.kept, h.bound, fun b hb => h.covered b (hmem b hb)⟩

section Run

variable {α : Type} {check : Registry → Env → Pool → α → Outcome × Pool}
  (infer : Registry → Env → Pool → α → List Inference) {bodies : α → List (String × Definition)}

/-- Checks that treat their subjects well treat a whole list well. -/
theorem treats_afterRuns {as : List α}
    (hcheck : ∀ r ∈ c.runs check c.fresh.pool as,
      (r.on check).1.Treats n (bodies r.subject) (r.on infer)) (isInferred : Bool) :
    Treats n (as.flatMap bodies) ((c.runs check c.fresh.pool as).flatMap (·.on infer)) c
      (afterRuns check isInferred c as) := by
  have hdiagnostics := diagnostics_afterRuns check isInferred c as
  refine ⟨fun diag hdiag => ?_, fun diag hdiag => ?_, fun i hi => ?_, fun b hb => ?_⟩
  · rw [hdiagnostics] at hdiag
    refine (mem_append.mp hdiag).imp_right fun hdiag => ?_
    obtain ⟨r, hr, hdiag⟩ := mem_flatMap.mp hdiag
    exact (hcheck r hr).quiet diag hdiag
  · rw [hdiagnostics]
    exact mem_append_left _ hdiag
  · obtain ⟨r, hr, hi⟩ := mem_flatMap.mp hi
    exact (hcheck r hr).bound i hi
  · obtain ⟨a, ha, hb⟩ := mem_flatMap.mp hb
    rw [← c.map_subject_runs check c.fresh.pool as] at ha
    obtain ⟨r, hr, rfl⟩ := mem_map.mp ha
    rcases (hcheck r hr).covered b hb with ⟨i, hi, hib⟩ | ⟨diag, hdiag, hreports⟩
    · exact .inl ⟨i, mem_flatMap.mpr ⟨r, hr, hi⟩, hib⟩
    · refine .inr ⟨diag, ?_, hreports⟩
      rw [hdiagnostics]
      exact mem_append_right _ (mem_flatMap.mpr ⟨r, hr, hdiag⟩)

/-- What refers to a failed name is reported to depend on it, and the rest is checked. -/
theorem treats_run {as runnable blocked : List α} (hperm : (runnable ++ blocked).Perm as)
    (hblocks : Blocks ((blocked.flatMap bodies).map (·.1)) c c')
    (hcheck : ∀ r ∈ c'.runs check c'.fresh.pool runnable,
      (r.on check).1.Treats n (bodies r.subject) (r.on infer)) (isInferred : Bool) :
    Treats n (as.flatMap bodies) ((c'.runs check c'.fresh.pool runnable).flatMap (·.on infer)) c
      (afterRuns check isInferred c' runnable) := by
  refine (hblocks.treats.trans (treats_afterRuns infer hcheck isInferred)).of_mem fun b hb => ?_
  have hmem := (hperm.flatMap_right bodies).mem_iff.mpr hb
  rw [flatMap_append, mem_append] at hmem
  exact mem_append.mpr hmem.symm

end Run

/-- In a wave, what the components refer to is bound or stands in the component itself. -/
theorem treats_inferWave (wave : List (List Definition))
    (hn : ∀ ds ∈ wave, ∀ d ∈ ds, n ∈ d.freeNames →
      n ∈ namesOf ds ∨ c.env.hasGlobal n ∨ n ∈ c.failed) :
    Treats n (wave.flatMap Component.bodies) ((c.waveRuns wave).flatMap (·.on Component.inferences))
      c (c.inferWave wave) := by
  obtain ⟨blocked, hperm, hblocks, hfree⟩ := c.runnableComponents_spec wave
  have hnames : (blocked.flatMap Component.bodies).map (·.1) = blocked.flatMap namesOf := by
    simp only [map_flatMap, Component.bodies_map_fst]
  refine treats_run Component.inferences hperm (hnames.symm ▸ hblocks) (fun r hr => ?_) true
  obtain ⟨hchecker, hds⟩ := of_mem_runs hr
  have henv : r.checker.env = c.env := by rw [hchecker, hblocks.rest]
  refine Component.treats_infer fun d hd hmem => ?_
  rw [henv]
  exact (hn _ (hperm.subset (mem_append_left _ hds)) d hd hmem).imp_right
    fun h => h.resolve_right (hfree _ hds d hd n hmem)

/-- A step that settles names keeps what is known about others. -/
theorem Settled.known {bound failed reported : List String} (h : Settled bound failed reported c c')
    (hn : c.env.hasGlobal n ∨ n ∈ c.failed ∨ n ∈ bound ++ failed) :
    c'.env.hasGlobal n ∨ n ∈ c'.failed := by
  rw [h.global, h.failed]
  rw [mem_append] at hn
  tauto

theorem known_inferWave {wave : List (List Definition)}
    (h : c.env.hasGlobal n ∨ n ∈ c.failed ∨ n ∈ namesOf wave.flatten) :
    (c.inferWave wave).env.hasGlobal n ∨ n ∈ (c.inferWave wave).failed := by
  obtain ⟨bound, failed, hperm, hsettled, -⟩ := c.settled_inferWave wave
  refine hsettled.known (h.imp_right fun h => h.imp_right fun h => ?_)
  obtain ⟨d, hd, rfl⟩ := mem_map.mp h
  obtain ⟨ds, hds, hdds⟩ := mem_flatten.mp hd
  rw [← flatMap_append]
  exact mem_flatMap.mpr ⟨ds, hperm.mem_iff.mpr hds, mem_namesOf hdds⟩

/-- In the waves of a module, what the components refer to is bound or stands in the component
itself. -/
theorem treats_foldl_inferWave {names done : List String} {waves : List (List (List Definition))}
    (horder : InOrder names done waves)
    (hknown : n ∉ names ∨ n ∈ done → c.env.hasGlobal n ∨ n ∈ c.failed) :
    Treats n (waves.flatten.flatMap Component.bodies)
        ((c.componentRuns waves).flatMap (·.on Component.inferences)) c (waves.foldl inferWave c) ∧
      (n ∉ names ∨ n ∈ namesOf waves.flatten.flatten ++ done →
        (waves.foldl inferWave c).env.hasGlobal n ∨ n ∈ (waves.foldl inferWave c).failed) := by
  induction waves generalizing c done with
  | nil => exact ⟨.refl c, hknown⟩
  | cons wave rest ih =>
    have hwave := treats_inferWave (n := n) (c := c) wave fun ds hds d hd hmem => by
      by_cases hname : n ∈ names
      · exact (horder.1 ds hds d hd n hmem hname).imp_right fun h => hknown (.inr h)
      · exact .inr (hknown (.inl hname))
    obtain ⟨hrest, hknown'⟩ := ih (c := c.inferWave wave) horder.2 fun h => known_inferWave <| by
      rw [mem_append] at h
      tauto
    rw [flatten_cons, flatMap_append, flatten_append, namesOf_append, componentRuns, flatMap_append]
    refine ⟨hwave.trans hrest, fun h => hknown' ?_⟩
    simp only [mem_append] at h ⊢
    tauto

/-- A check against signatures sees all global names. -/
theorem treats_checkDeclared (hn : c.env.hasGlobal n ∨ n ∈ c.failed) :
    Treats n (c.declared.map fun task => (task.label, task.definition))
      (c.taskRuns.map (·.on DeclaredTask.inference)) c c.checkDeclared := by
  obtain ⟨blocked, hperm, hblocks, hfree⟩ := c.runnableTasks_spec c.declared
  have hnames : (blocked.flatMap fun task => [(task.label, task.definition)]).map (·.1) =
      blocked.map (·.label) := by simp [← map_eq_flatMap]
  rw [map_eq_flatMap, map_eq_flatMap]
  refine treats_run (fun reg env pool task => [task.inference reg env pool]) hperm
    (hnames.symm ▸ hblocks) (fun r hr => ?_) false
  obtain ⟨hchecker, htask⟩ := of_mem_runs hr
  have henv : r.checker.env = c.env := by rw [hchecker, hblocks.rest]
  refine DeclaredTask.treats_check fun hmem => ?_
  rw [henv]
  exact hn.resolve_right (hfree _ htask n hmem)

/-! ## Modules -/

/-- The name is global, has failed or waits to be inferred. -/
def Known (n : String) (c : Checker) : Prop :=
  c.env.hasGlobal n ∨ n ∈ c.failed ∨ n ∈ namesOf c.inferred

theorem Idles.known {names : List String} (h : Idles names c c') (hn : Known n c) : Known n c' := by
  rw [Known, h.env, h.inferred]
  exact hn.imp_right fun hn => hn.imp_left (h.kept n)

/-- A declared definition is known, and what was known before stays so. -/
theorem Declares.known {d : Definition} (h : Declares d c c') (hn : n = d.name.node ∨ Known n c) :
    Known n c' := by
  cases h with
  | duplicate known idles =>
    refine idles.known (hn.elim ?_ id)
    rintro rfl
    exact known.imp_right .inr
  | waits =>
    rw [Known, namesOf_append, mem_append]
    rcases hn with rfl | hn
    · exact .inr (.inr (.inr (.head _)))
    · exact hn.imp_right fun h => h.imp_right .inl
  | failed _ failed idles =>
    rcases hn with rfl | hn
    · exact .inr (.inl failed)
    · exact idles.known hn
  | signed =>
    rcases hn with hn | hn
    · exact .inl (hasGlobal_bindGlobal.mpr (.inr hn))
    · exact hn.imp_left fun hn => hasGlobal_bindGlobal.mpr (.inl hn)

theorem known_declareDefinitions {ds : List Definition} (hn : n ∈ namesOf ds ∨ Known n c) :
    Known n (ds.foldl declareDefinition c) := by
  induction ds generalizing c with
  | nil => exact hn.resolve_left not_mem_nil
  | cons d ds ih =>
    have hd := c.declares_declareDefinition d
    refine ih ?_
    rcases hn with hn | hn
    · rcases mem_cons.mp hn with rfl | hn
      · exact .inr (hd.known (.inl rfl))
      · exact .inl hn
    · exact .inr (hd.known (.inr hn))

theorem known_declareModule {m : Module} (hn : n ∈ namesOf m.definitions) :
    Known n (declareModule {} m) := by
  rw [declareModule_eq_foldl]
  exact known_declareDefinitions (.inl hn)

/-- All bodies of a checker that knows the name are inferred where it is bound, or reported. -/
theorem treats_of_known (h : Known n c) :
    Treats n (Component.bodies c.inferred ++ c.declared.map
      fun task => (task.label, task.definition))
      ((c.componentRuns (wavesOf c.inferred)).flatMap (·.on Component.inferences) ++
        c.inferComponents.taskRuns.map (·.on DeclaredTask.inference)) c
      c.inferComponents.checkDeclared := by
  have hperm := wavesOf_flatten_perm c.inferred
  obtain ⟨hwaves, hknown⟩ :=
    treats_foldl_inferWave (n := n) (c := c) (inOrder_wavesOf c.inferred) fun hn =>
    h.imp_right fun h => h.resolve_right (hn.resolve_right not_mem_nil)
  have htasks := treats_checkDeclared (n := n) (c := c.inferComponents) (hknown ?_)
  · rw [declared_inferComponents] at htasks
    refine (hwaves.of_mem fun b hb => ?_).trans htasks
    obtain ⟨d, hd, rfl⟩ := mem_map.mp hb
    obtain ⟨ds, hds, hdds⟩ := mem_flatten.mp (hperm.mem_iff.mpr hd)
    exact mem_flatMap.mpr ⟨ds, hds, mem_map_of_mem hdds⟩
  · rw [append_nil, or_iff_not_imp_left, not_not]
    exact fun hn => (hperm.map _).mem_iff.mpr hn

end Checker

/-- The order of declarations never makes a definition unbound: no diagnostic reports it as unbound,
every body that refers to it is inferred where it is bound, and a body that waits is inferred or
reported to depend on a failed binding. -/
theorem Module.definitions_always_bound (m : Module) (trace : Bool) (d : Definition)
    (hd : d ∈ m.definitions) :
    (∀ diag ∈ (m.check trace).diagnostics, diag.message ≠ s!"unbound variable `{d.name.node}`") ∧
    (∀ i ∈ m.inferences, d.name.node ∈ i.definition.freeNames →
      (i.start.env.get? d.name.node).isSome) ∧
    ∀ b ∈ m.bodies, (∃ i ∈ m.inferences, i.label = b.1 ∧ i.definition = b.2) ∨
      ∃ diag ∈ (m.check trace).diagnostics, diag.ReportsDependency b.1 := by
  have h := Checker.treats_of_known (Checker.known_declareModule (mem_namesOf hd))
  rw [m.diagnostics_check trace]
  refine ⟨fun diag hdiag => ?_, h.bound, h.covered⟩
  exact (h.quiet diag hdiag).elim
    (fun hdiag => (Checker.recorded_declareModule m).plain diag hdiag _) id

/-- `even x = odd x` and, declared after it, `odd x = even x`. -/
private def cyclicModule : Module where
  declarations := [
    Declaration.definition {
        name := "even"
        params := [.var .synthetic "x"]
        body := .call .synthetic (.var .synthetic "odd") [.var .synthetic "x"] },
    Declaration.definition {
        name := "odd"
        params := [.var .synthetic "x"]
        body := .call .synthetic (.var .synthetic "even") [.var .synthetic "x"] }]

/-- The two definitions need each other, so neither order declares both before they are used. -/
theorem Module.definitions_always_bound_cycle :
    (∀ diag ∈ (cyclicModule.check false).diagnostics, Spares "odd" diag.message) ∧
      ∀ i ∈ cyclicModule.inferences, "odd" ∈ i.definition.freeNames →
      (i.start.env.get? "odd").isSome := by
  have h := Module.definitions_always_bound cyclicModule false _ (mem_cons_of_mem _ mem_cons_self)
  exact ⟨h.1, h.2.1⟩

end RowTyping
