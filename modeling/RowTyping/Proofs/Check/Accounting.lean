import RowTyping.Proofs.Check.Recorded
import RowTyping.Proofs.Check.Tracing

/-!
# Every definition is reported or fails

If the names of a module are distinct, each definition is in exactly one place at any time: it
waits, its signature is reported, or its name has failed (`Checker.Balanced`). Waves and tasks move
definitions out of the first place, so in a report every definition has one signature or has failed.
Failure spreads: what refers to a failed definition without a signature of its own is not looked at
any more.
-/

namespace RowTyping

open List

/-- All names that a module declares. -/
def Module.declaredNames (m : Module) : List String :=
  m.auxiliaryNames ++ namesOf m.definitions

namespace Checker

variable {c c' : Checker} {n : String} {waiting waiting' : List String}

theorem reportedLabels_append (tasks tasks' : List DeclaredTask) :
    reportedLabels (tasks ++ tasks') = reportedLabels tasks ++ reportedLabels tasks' :=
  flatMap_append

theorem mem_reportedLabels {tasks : List DeclaredTask} :
    n ∈ reportedLabels tasks ↔ ∃ task ∈ tasks, task.isReported ∧ task.label = n := by
  simp only [reportedLabels, mem_flatMap]
  refine exists_congr fun task => and_congr_right fun _ => ?_
  cases task.isReported <;> simp [eq_comm]

/-- A name waits once, or has one signature, or failed. -/
def Balanced (waiting : List String) (c : Checker) (n : String) : Prop :=
  (c.signatures.map (·.name)).count n + waiting.count n + (if n ∈ c.failed then 1 else 0) = 1

theorem Balanced.congr (h : Balanced waiting c n) (hsignatures : c'.signatures = c.signatures)
    (hwaiting : waiting'.count n = waiting.count n) (hfailed : n ∈ c'.failed ↔ n ∈ c.failed) :
    Balanced waiting' c' n := by
  rw [Balanced, hsignatures, hwaiting]
  simpa only [Balanced, hfailed] using h

theorem balanced_of_waiting (hsignatures : (c.signatures.map (·.name)).count n = 0)
    (hwaiting : waiting.count n = 1) (hfailed : n ∉ c.failed) : Balanced waiting c n := by
  rw [Balanced, hsignatures, hwaiting, if_neg hfailed]

theorem balanced_of_failed (hsignatures : (c.signatures.map (·.name)).count n = 0)
    (hwaiting : waiting.count n = 0) (hfailed : n ∈ c.failed) : Balanced waiting c n := by
  rw [Balanced, hsignatures, hwaiting, if_pos hfailed]

/-! ## Definitions are registered -/

/-- A task belongs to an operation of an implementation, or to one of the definitions. -/
def TaskOf (P : String → Prop) (done : List Definition) (task : DeclaredTask) : Prop :=
  task.isReported = false ∧ P task.label ∨
    task.isReported ∧ task.definition ∈ done ∧ task.label = task.definition.name.node

/-- What is known after definitions were declared on top of other names. -/
structure Registered (P : String → Prop) (done : List Definition) (c : Checker) : Prop where
  global : ∀ n, c.env.hasGlobal n → P n ∨ n ∈ namesOf done
  failed : ∀ n ∈ c.failed, P n ∨ n ∈ namesOf done
  signatures : ∀ sig ∈ c.signatures, P sig.name
  inferred : c.inferred = done.filter (·.declared.isNone)
  declared : ∀ task ∈ c.declared, TaskOf P done task
  balanced : ∀ d ∈ done, Balanced (namesOf c.inferred ++ reportedLabels c.declared) c d.name.node

section Registered

variable {P : String → Prop} {done : List Definition}

variable (h : Registered P done c)
include h

theorem Registered.mem_namesOf_done (hn : n ∈ namesOf c.inferred) :
    n ∈ namesOf done := by
  rw [h.inferred] at hn
  obtain ⟨d, hd, rfl⟩ := mem_map.mp hn
  exact mem_namesOf (mem_filter.mp hd).1

theorem Registered.not_mem_waiting (hdone : n ∉ namesOf done) :
    n ∉ namesOf c.inferred ++ reportedLabels c.declared := by
  rw [mem_append, not_or]
  refine ⟨mt h.mem_namesOf_done hdone, fun hn => ?_⟩
  obtain ⟨task, htask, hreported, rfl⟩ := mem_reportedLabels.mp hn
  rcases h.declared task htask with ⟨hunreported, -⟩ | ⟨-, hmem, hlabel⟩
  · simp [hunreported] at hreported
  · exact hdone (hlabel ▸ mem_namesOf hmem)

/-- Nothing is known about a new name. -/
theorem Registered.unknown (hP : ¬ P n) (hdone : n ∉ namesOf done) :
    (c.signatures.map (·.name)).count n = 0 ∧
      (namesOf c.inferred ++ reportedLabels c.declared).count n = 0 ∧
      n ∉ c.failed ∧ ¬ c.env.hasGlobal n := by
  refine ⟨count_eq_zero.mpr fun hn => ?_, count_eq_zero.mpr (h.not_mem_waiting hdone),
    fun hn => (h.failed n hn).elim hP hdone, fun hn => (h.global n hn).elim hP hdone⟩
  obtain ⟨sig, hsig, rfl⟩ := mem_map.mp hn
  exact hP (h.signatures sig hsig)

/-- A definition with a new name waits or fails, and the others stay where they are. -/
theorem Registered.step {d : Definition} (hP : ¬ P d.name.node)
    (hdone : d.name.node ∉ namesOf done) (hd : Declares d c c') :
    Registered P (done ++ [d]) c' := by
  obtain ⟨hsignatures, hwaiting, hfailed, hglobal⟩ := h.unknown hP hdone
  have hold {n : String} (hn : P n ∨ n ∈ namesOf done) : P n ∨ n ∈ namesOf (done ++ [d]) :=
    hn.imp_right fun hn => by simp [namesOf_append, hn]
  have hself : d.name.node ∈ namesOf (done ++ [d]) := mem_namesOf (by simp)
  have hne {d' : Definition} (hd' : d' ∈ done) : d'.name.node ≠ d.name.node := fun heq =>
    hdone (heq ▸ mem_namesOf hd')
  have hother {d' : Definition} (hd' : d' ∈ done) : [d.name.node].count d'.name.node = 0 :=
    count_eq_zero.mpr (by simpa using hne hd')
  have hmono {task : DeclaredTask} (htask : TaskOf P done task) : TaskOf P (done ++ [d]) task :=
    htask.imp_right fun ⟨hreported, hmem, hlabel⟩ => ⟨hreported, mem_append_left _ hmem, hlabel⟩
  have hforall {Q : Definition → Prop} (hQ : ∀ d' ∈ done, Q d') (hd : Q d) :
      ∀ d' ∈ done ++ [d], Q d' := by
    simpa [or_imp, forall_and] using ⟨hQ, hd⟩
  cases hd with
  | duplicate known =>
    exact (known.elim hglobal fun hmem => hdone (h.mem_namesOf_done hmem)).elim
  | waits unsigned =>
    have hcount (m : String) : (namesOf (c.inferred ++ [d]) ++ reportedLabels c.declared).count m =
        (namesOf c.inferred ++ reportedLabels c.declared).count m + [d.name.node].count m := by
      simp only [namesOf, map_append, map_cons, map_nil, count_append]
      omega
    refine ⟨fun n hn => hold (h.global n hn), fun n hn => hold (h.failed n hn), h.signatures,
      by simp [h.inferred, unsigned], fun task htask => hmono (h.declared task htask),
      hforall (fun d' hd' => (h.balanced d' hd').congr rfl ?_ Iff.rfl) ?_⟩
    · rw [hcount, hother hd', Nat.add_zero]
    · exact balanced_of_waiting hsignatures (by rw [hcount, hwaiting]; simp) hfailed
  | failed signed failed idles =>
    have hmem (n : String) : n ∈ c'.failed ↔ n = d.name.node ∨ n ∈ c.failed := by
      refine ⟨fun hn => ((idles.failed n hn).imp_right mem_singleton.mp).symm, ?_⟩
      rintro (rfl | hn)
      · exact failed
      · exact idles.kept n hn
    refine ⟨fun n hn => hold (h.global n (idles.env ▸ hn)), fun n hn => ?_,
      fun sig hsig => h.signatures sig (idles.signatures ▸ hsig), ?_,
      fun task htask => hmono (h.declared task (idles.declared ▸ htask)), ?_⟩
    · rcases (hmem n).mp hn with rfl | hn
      · exact .inr hself
      · exact hold (h.failed n hn)
    · rw [idles.inferred, h.inferred, filter_append]
      simp [signed]
    · rw [idles.inferred, idles.declared]
      refine hforall (fun d' hd' => (h.balanced d' hd').congr idles.signatures rfl ?_) ?_
      · rw [hmem]
        simp [hne hd']
      · exact balanced_of_failed (idles.signatures ▸ hsignatures) hwaiting ((hmem _).mpr (.inl rfl))
  | @signed written givens σ r signed =>
    have hcount (m : String) :
        (namesOf c.inferred ++ reportedLabels (c.declared ++ [signedTask d σ])).count m =
          (namesOf c.inferred ++ reportedLabels c.declared).count m + [d.name.node].count m := by
      rw [reportedLabels_append, ← append_assoc, count_append]
      rfl
    refine ⟨fun n hn => ?_, fun n hn => hold (h.failed n hn), h.signatures, ?_,
      fun task' htask => ?_,
      hforall (fun d' hd' => (h.balanced d' hd').congr rfl ?_ Iff.rfl) ?_⟩
    · rcases hasGlobal_bindGlobal.mp hn with hn | rfl
      · exact hold (h.global n hn)
      · exact .inr hself
    · rw [filter_append, ← h.inferred]
      simp [signed, bindGlobal]
    · rcases mem_append.mp htask with htask | htask
      · exact hmono (h.declared task' htask)
      · rw [mem_singleton.mp htask]
        exact .inr ⟨rfl, by simp [signedTask], rfl⟩
    · exact (hcount _).trans (by rw [hother hd', Nat.add_zero])
    · exact balanced_of_waiting hsignatures ((hcount _).trans (by rw [hwaiting]; simp)) hfailed

/-- Definitions with distinct new names are all registered. -/
theorem Registered.foldl {ds : List Definition} (hP : ∀ d ∈ ds, ¬ P d.name.node)
    (hnodup : (namesOf (done ++ ds)).Nodup) :
    Registered P (done ++ ds) (ds.foldl declareDefinition c) := by
  induction ds generalizing done c with
  | nil => simpa using h
  | cons d ds ih =>
    have hdone : d.name.node ∉ namesOf done := by
      rw [namesOf_append, nodup_append] at hnodup
      exact fun hmem => hnodup.2.2 _ hmem _ (.head _) rfl
    obtain ⟨hd, hds⟩ := forall_mem_cons.mp hP
    have hstep := h.step hd hdone (c.declares_declareDefinition d)
    rw [← singleton_append, ← append_assoc] at hnodup ⊢
    exact ih hstep hds hnodup

end Registered

/-! ## Waves -/

/-- A step that settles waiting names keeps the balance. -/
theorem Balanced.settle {bound failed reported : List String} (h : Balanced waiting c n)
    (hsettled : Settled bound failed reported c c')
    (hwaiting : waiting.count n = reported.count n + failed.count n + waiting'.count n) :
    Balanced waiting' c' n := by
  have hsignatures : (c'.signatures.map (·.name)).count n =
      (c.signatures.map (·.name)).count n + reported.count n := by
    rw [hsettled.signatures.count_eq, count_append]
  rw [Balanced, hwaiting] at h
  rw [Balanced, hsignatures]
  by_cases hn : n ∈ failed
  · have hpos := count_pos_iff.mpr hn
    rw [if_pos ((hsettled.failed n).mpr (.inr hn))]
    omega
  · have hfailed : n ∈ c'.failed ↔ n ∈ c.failed := by simp [hsettled.failed n, hn]
    rw [count_eq_zero.mpr hn] at h
    simp only [hfailed]
    omega

theorem count_flatMap_namesOf {bound failed wave : List (List Definition)}
    (h : (bound ++ failed).Perm wave) (n : String) : (namesOf wave.flatten).count n =
      (bound.flatMap namesOf).count n + (failed.flatMap namesOf).count n := by
  have hflatten (dss : List (List Definition)) : namesOf dss.flatten = dss.flatMap namesOf := by
    rw [namesOf, map_flatten, List.flatMap]
    rfl
  rw [hflatten, ← (h.flatMap_right namesOf).count_eq, flatMap_append, count_append]

theorem balanced_inferWave {wave : List (List Definition)}
    (h : Balanced (namesOf wave.flatten ++ waiting) c n) :
    Balanced waiting (c.inferWave wave) n := by
  obtain ⟨bound, failed, hperm, hsettled, -⟩ := c.settled_inferWave wave
  refine h.settle hsettled ?_
  rw [count_append, count_flatMap_namesOf hperm]

theorem balanced_foldl_inferWave {waves : List (List (List Definition))}
    (h : Balanced (namesOf waves.flatten.flatten ++ waiting) c n) :
    Balanced waiting (waves.foldl inferWave c) n := by
  induction waves generalizing c with
  | nil => exact h
  | cons wave rest ih =>
    rw [flatten_cons, flatten_append, namesOf_append, append_assoc] at h
    exact ih (balanced_inferWave h)

/-- A name that no longer waits does not fail later. -/
theorem Balanced.mem_failed {bound failed reported : List String} (h : Balanced waiting c n)
    (hwaiting : n ∉ waiting) (hsettled : Settled bound failed reported c c')
    (h' : Balanced waiting' c' n) (hn : n ∈ c'.failed) : n ∈ c.failed := by
  by_contra hfailed
  rw [Balanced, count_eq_zero.mpr hwaiting, if_neg hfailed] at h
  rw [Balanced, hsettled.signatures.count_eq, count_append, if_pos hn] at h'
  omega

/-- Failure spreads in the waves: a definition that refers to a failed one of them fails. -/
theorem failed_foldl_inferWave {names done : List String} {waves : List (List (List Definition))}
    (horder : InOrder names done waves)
    (hbalanced : ∀ n ∈ names, Balanced (namesOf waves.flatten.flatten ++ waiting) c n)
    (hdone : ∀ n ∈ done, n ∉ namesOf waves.flatten.flatten ++ waiting)
    (hnames : ∀ n ∈ namesOf waves.flatten.flatten, n ∈ names) :
    ∀ ds ∈ waves.flatten, ∀ d ∈ ds, ∀ n ∈ d.freeNames, n ∈ names →
      n ∈ (waves.foldl inferWave c).failed → d.name.node ∈ (waves.foldl inferWave c).failed := by
  induction waves generalizing c done with
  | nil => exact fun ds hds => absurd hds not_mem_nil
  | cons wave rest ih =>
    have hsplit : namesOf (wave :: rest).flatten.flatten ++ waiting =
        namesOf wave.flatten ++ (namesOf rest.flatten.flatten ++ waiting) := by
      rw [flatten_cons, flatten_append, namesOf_append, append_assoc]
    rw [hsplit] at hbalanced hdone
    have hwave (n : String) (hn : n ∈ namesOf wave.flatten) :
        n ∈ names ∧ n ∉ namesOf rest.flatten.flatten ++ waiting := by
      have hmem : n ∈ names := hnames n (by
        rw [flatten_cons, flatten_append, namesOf_append]
        exact mem_append_left _ hn)
      have hbalance := hbalanced n hmem
      have hpos := count_pos_iff.mpr hn
      rw [Balanced, count_append] at hbalance
      exact ⟨hmem, count_eq_zero.mp (by omega)⟩
    have hdone' : ∀ n ∈ namesOf wave.flatten ++ done, n ∉ namesOf rest.flatten.flatten ++ waiting :=
      fun n hn => (mem_append.mp hn).elim (fun hn => (hwave n hn).2)
        fun hn hrest => hdone n hn (mem_append_right _ hrest)
    have hbalanced' : ∀ n ∈ names, Balanced (namesOf rest.flatten.flatten ++ waiting)
        (c.inferWave wave) n := fun n hn => balanced_inferWave (hbalanced n hn)
    intro ds hds d hd n hn hname hfailed
    rw [flatten_cons] at hds
    rcases mem_append.mp hds with hds | hds
    · have hearlier := horder.1 ds hds d hd n hn hname
      have hin : n ∈ namesOf wave.flatten ++ done := hearlier.elim (fun hmem => by
        obtain ⟨d', hd', rfl⟩ := mem_map.mp hmem
        exact mem_append_left _ (mem_namesOf (mem_flatten.mpr ⟨ds, hds, hd'⟩)))
        (mem_append_right _)
      -- the name has failed when its wave is over, since it no longer waits then
      obtain ⟨_, _, _, hrest⟩ := settled_foldl_inferWave (c.inferWave wave) rest
      have hfailed' : n ∈ (c.inferWave wave).failed :=
        (hbalanced' n hname).mem_failed (hdone' n hin) hrest
          (balanced_foldl_inferWave (hbalanced' n hname)) hfailed
      refine (hrest.failed _).mpr (.inl ?_)
      obtain ⟨bound, failed, hperm, hsettled, hfree⟩ := c.settled_inferWave wave
      rcases mem_append.mp (hperm.mem_iff.mpr hds) with hbound | hblocked
      · -- a bound component refers to no failed name, and its own names did not fail
        exfalso
        have hmem := ((hsettled.failed n).mp hfailed').resolve_left (hfree ds hbound d hd n hn)
        have hpos := count_pos_iff.mpr hmem
        have hbalance := hbalanced n hname
        rw [Balanced, count_append, count_flatMap_namesOf hperm] at hbalance
        rcases hearlier with hown | hown
        · have hpos' := count_pos_iff.mpr (mem_flatMap.mpr ⟨ds, hbound, hown⟩)
          omega
        · have hnone := count_eq_zero.mpr (hdone n hown)
          rw [count_append, count_flatMap_namesOf hperm] at hnone
          omega
      · exact (hsettled.failed _).mpr
          (.inr (mem_flatMap.mpr ⟨ds, hblocked, mem_namesOf hd⟩))
    · refine ih horder.2 hbalanced' hdone' (fun n hn => hnames n ?_) ds hds d hd n hn hname hfailed
      rw [flatten_cons, flatten_append, namesOf_append]
      exact mem_append_right _ hn

/-! ## Tasks -/

/-- Only reported tasks have the label of a definition. -/
theorem count_map_label {tasks : List DeclaredTask}
    (h : ∀ task ∈ tasks, task.isReported = false → task.label ≠ n) :
    (tasks.map (·.label)).count n = (reportedLabels tasks).count n := by
  induction tasks with
  | nil => rfl
  | cons task tasks ih =>
    obtain ⟨htask, htasks⟩ := forall_mem_cons.mp h
    have hlabel : [task.label].count n =
        (if task.isReported then [task.label] else []).count n := by
      cases hreported : task.isReported
      · simpa using count_eq_zero.mpr (by simpa [eq_comm] using htask hreported)
      · rfl
    rw [map_cons, ← singleton_append, count_append, ih htasks, hlabel, reportedLabels,
      reportedLabels, flatMap_cons, count_append]

theorem balanced_checkDeclared (h : Balanced (reportedLabels c.declared) c n)
    (hlabel : ∀ task ∈ c.declared, task.isReported = false → task.label ≠ n) :
    Balanced [] c.checkDeclared n := by
  obtain ⟨bound, failed, hperm, hsettled, -⟩ := c.settled_checkDeclared
  refine h.settle hsettled ?_
  have hreported : (reportedLabels c.declared).Perm (reportedLabels (bound ++ failed)) :=
    (hperm.flatMap_right _).symm
  rw [hreported.count_eq, reportedLabels_append, count_append, count_map_label fun task htask =>
    hlabel task (hperm.subset (mem_append_right _ htask))]
  rfl

/-! ## Whole modules -/

section Registered

variable {P : String → Prop} {done : List Definition} {d f : Definition}

/-- Before definitions are declared only reserved names are known. -/
theorem Recorded.registered {m : Module} (h : c.Recorded m []) :
    Registered (· ∈ predeclaredNames ++ m.auxiliaryNames) [] c where
  global n hn := by
    obtain ⟨σ, hσ⟩ := Option.isSome_iff_exists.mp hn
    cases h.globals hσ with
    | constructor hd hcon hname =>
      obtain ⟨decl, hdecl, hgives⟩ := h.data hd
      obtain ⟨v, hv, hvname, -⟩ := hgives.constructors _ hcon
      refine Or.inl (m.reserves_data hdecl (mem_cons_of_mem _ ?_))
      exact mem_map.mpr ⟨v, hv, hvname.trans hname⟩
    | operation hd ho hname =>
      exact Or.inl (m.reserves_effect hd (mem_cons_of_mem _ (mem_map.mpr ⟨_, ho, hname⟩)))
    | method hd ho hname =>
      exact Or.inl (m.reserves_trait hd (mem_cons_of_mem _ (mem_map.mpr ⟨_, ho, hname⟩)))
    | signed hd => cases hd
  failed := h.failed
  signatures sig hsig := by
    obtain ⟨d, hd, o, ho, _, _, -, rfl, -⟩ := h.signatures sig hsig
    exact m.reserves_trait hd (mem_cons_of_mem _ (mem_map_of_mem ho))
  inferred := eq_nil_iff_forall_not_mem.mpr fun d hd => not_mem_nil (h.inferred d hd).1
  declared task htask := by
    cases (h.declared task htask).1 with
    | operation hblock hd _ _ _ _ _ heq =>
      rw [heq]
      exact Or.inl ⟨rfl, m.reserves_impl hblock (mem_map.mpr ⟨_, hd, rfl⟩)⟩
    | signed hd => cases hd
  balanced := forall_mem_nil _

/-- All definitions of a module with distinct names are registered. -/
theorem registered_declareModule {m : Module} (hnodup : m.declaredNames.Nodup)
    (hnew : ∀ d ∈ m.definitions, d.name.node ∉ predeclaredNames ++ m.auxiliaryNames) :
    Registered (· ∈ predeclaredNames ++ m.auxiliaryNames) m.definitions (declareModule {} m) :=
  (recorded_afterImpls m).registered.foldl hnew (nodup_append.mp hnodup).2.1

variable (h : Registered P done c)
include h

theorem Registered.balanced_wavesOf (hd : d ∈ done) :
    Balanced (namesOf (wavesOf c.inferred).flatten.flatten ++ reportedLabels c.declared) c
      d.name.node := by
  have hperm : (namesOf (wavesOf c.inferred).flatten.flatten).Perm (namesOf c.inferred) :=
    (wavesOf_flatten_perm c.inferred).map _
  exact (h.balanced d hd).congr rfl ((hperm.append_right _).count_eq _) Iff.rfl

/-- After the waves only definitions with a signature wait. -/
theorem Registered.balanced_inferComponents (hd : d ∈ done) :
    Balanced (reportedLabels c.inferComponents.declared) c.inferComponents d.name.node := by
  rw [declared_inferComponents]
  exact balanced_foldl_inferWave (h.balanced_wavesOf hd)

/-- After the check of signatures nothing waits any more. -/
theorem Registered.balanced_end (hd : d ∈ done) (hP : ¬ P d.name.node) :
    Balanced [] c.inferComponents.checkDeclared d.name.node := by
  refine balanced_checkDeclared (h.balanced_inferComponents hd)
    fun task htask hunreported hlabel => ?_
  rw [declared_inferComponents] at htask
  rcases h.declared task htask with ⟨-, hP'⟩ | ⟨hreported, -⟩
  · exact hP (hlabel ▸ hP')
  · simp [hunreported] at hreported

/-- A definition without a signature fails in its wave if it fails at all. -/
theorem Registered.failed_inferComponents (hf : f ∈ done)
    (hunsigned : f.declared = none) (hP : ¬ P f.name.node)
    (hfailed : f.name.node ∈ c.inferComponents.checkDeclared.failed) :
    f.name.node ∈ c.inferComponents.failed := by
  have hinferred : f.name.node ∈ namesOf c.inferred := by
    rw [h.inferred]
    exact mem_namesOf (mem_filter.mpr ⟨hf, by simp [hunsigned]⟩)
  have hwaiting : f.name.node ∉ reportedLabels c.inferComponents.declared := by
    have hbalance := h.balanced f hf
    have hpos := count_pos_iff.mpr hinferred
    rw [Balanced, count_append] at hbalance
    rw [declared_inferComponents]
    exact count_eq_zero.mp (by omega)
  obtain ⟨_, _, -, hsettled, -⟩ := c.inferComponents.settled_checkDeclared
  exact (h.balanced_inferComponents hf).mem_failed hwaiting hsettled (h.balanced_end hf hP) hfailed

/-- A definition with a signature fails at once or becomes a task. -/
theorem Registered.mem_declared (hnodup : (namesOf done).Nodup) (hd : d ∈ done)
    (hsigned : d.declared ≠ none) (hP : ¬ P d.name.node) (hfailed : d.name.node ∉ c.failed) :
    ∃ task ∈ c.declared, task.definition = d ∧ task.label = d.name.node := by
  have hsignatures : (c.signatures.map (·.name)).count d.name.node = 0 := by
    refine count_eq_zero.mpr fun hn => ?_
    obtain ⟨sig, hsig, hname⟩ := mem_map.mp hn
    exact hP (hname ▸ h.signatures sig hsig)
  have hsame {d' : Definition} (hd' : d' ∈ done) (hname : d'.name.node = d.name.node) : d' = d :=
    inj_on_of_nodup_map hnodup hd' hd hname
  have hinferred : (namesOf c.inferred).count d.name.node = 0 := by
    refine count_eq_zero.mpr fun hn => ?_
    rw [h.inferred] at hn
    obtain ⟨d', hd', hname⟩ := mem_map.mp hn
    obtain ⟨hmem, hunsigned⟩ := mem_filter.mp hd'
    rw [hsame hmem hname] at hunsigned
    exact hsigned (Option.isNone_iff_eq_none.mp hunsigned)
  have hbalance := h.balanced d hd
  rw [Balanced, count_append, hsignatures, hinferred, if_neg hfailed] at hbalance
  obtain ⟨task, htask, hreported, hlabel⟩ :=
    mem_reportedLabels.mp (count_pos_iff.mp
      (by omega : 0 < (reportedLabels c.declared).count d.name.node))
  rcases h.declared task htask with ⟨hunreported, -⟩ | ⟨-, hmem, hname⟩
  · simp [hunreported] at hreported
  · exact ⟨task, htask, hsame hmem (hname.symm.trans hlabel), hlabel⟩

/-- What refers to a failed definition without a signature fails. -/
theorem Registered.failed_of_mem_freeNames (hnodup : (namesOf done).Nodup)
    (hP : ∀ d ∈ done, ¬ P d.name.node) (hf : f ∈ done) (hunsigned : f.declared = none)
    (hfailed : f.name.node ∈ c.inferComponents.checkDeclared.failed) (hd : d ∈ done)
    (hmem : f.name.node ∈ d.freeNames) : d.name.node ∈ c.inferComponents.checkDeclared.failed := by
  have hfailed' := h.failed_inferComponents hf hunsigned (hP f hf) hfailed
  obtain ⟨_, _, _, hwaves⟩ := settled_foldl_inferWave c (wavesOf c.inferred)
  obtain ⟨bound, failed, hperm, hsettled, hfree⟩ := c.inferComponents.settled_checkDeclared
  rw [declared_inferComponents] at hperm
  by_cases hsigned : d.declared = none
  · refine (hsettled.failed _).mpr (.inl ?_)
    have hmember {f : Definition} (hf : f ∈ done) (hunsigned : f.declared = none) :
        f ∈ c.inferred := by
      rw [h.inferred]
      exact mem_filter.mpr ⟨hf, by simp [hunsigned]⟩
    obtain ⟨ds, hds, hdds⟩ :=
      mem_flatten.mp ((wavesOf_flatten_perm c.inferred).mem_iff.mpr (hmember hd hsigned))
    have hbalanced : ∀ n ∈ namesOf c.inferred,
        Balanced (namesOf (wavesOf c.inferred).flatten.flatten ++ reportedLabels c.declared)
          c n := by
      intro n hn
      obtain ⟨d', hd', rfl⟩ := mem_map.mp (h.mem_namesOf_done hn)
      exact h.balanced_wavesOf hd'
    have hnames : ∀ n ∈ namesOf (wavesOf c.inferred).flatten.flatten, n ∈ namesOf c.inferred :=
      fun n hn => ((wavesOf_flatten_perm c.inferred).map _).subset hn
    exact failed_foldl_inferWave (inOrder_wavesOf c.inferred) hbalanced
      (fun n hn => by cases hn) hnames
      ds hds d hdds _ hmem (mem_namesOf (hmember hf hunsigned)) hfailed'
  · by_cases hfirst : d.name.node ∈ c.failed
    · exact (hsettled.failed _).mpr (.inl ((hwaves.failed _).mpr (.inl hfirst)))
    · obtain ⟨task, htask, rfl, hlabel⟩ := h.mem_declared hnodup hd hsigned (hP d hd) hfirst
      rcases mem_append.mp (hperm.mem_iff.mpr htask) with hbound | hblocked
      · exact absurd hfailed' (hfree task hbound _ hmem)
      · exact (hsettled.failed _).mpr (.inr (hlabel ▸ mem_map_of_mem hblocked))

end Registered

/-- What no longer waits is in the report once or has failed. -/
theorem count_finish (h : Balanced [] c n) (trace : Bool) :
    ((c.finish trace).signatures.map (·.name)).count n = if n ∈ c.failed then 0 else 1 := by
  have hsorted := ((mergeSort_perm c.signatures fun a b => a.name ≤ b.name).map (·.name)).count_eq n
  simp only [finish, hsorted]
  rw [Balanced, count_nil, Nat.add_zero] at h
  by_cases hn : n ∈ c.failed
  · rw [if_pos hn] at h ⊢
    omega
  · rw [if_neg hn] at h ⊢
    exact h

end Checker

/-- If the names of a module are distinct from each other and from the predeclared ones, every
definition has exactly one signature in the report, or has failed and has none. What refers to a
failed definition without a signature of its own has failed too. -/
theorem Module.check_accounts_for_definitions (m : Module) (trace : Bool)
    (hnodup : m.declaredNames.Nodup) (hnew : ∀ n ∈ m.declaredNames, n ∉ predeclaredNames) :
    (∀ d ∈ m.definitions, ((m.check trace).signatures.map (·.name)).count d.name.node =
      if d.name.node ∈ (m.check trace).failed then 0 else 1) ∧
    ∀ f ∈ m.definitions, f.declared = none → f.name.node ∈ (m.check trace).failed →
      ∀ d ∈ m.definitions, f.name.node ∈ d.freeNames → d.name.node ∈ (m.check trace).failed := by
  have hP : ∀ d ∈ m.definitions, d.name.node ∉ predeclaredNames ++ m.auxiliaryNames := by
    intro d hd hn
    rcases mem_append.mp hn with hn | hn
    · exact hnew _ (mem_append_right _ (mem_namesOf hd)) hn
    · exact (nodup_append.mp hnodup).2.2 _ hn _ (mem_namesOf hd) rfl
  have hregistered := Checker.registered_declareModule hnodup hP
  rw [m.signatures_check trace, m.failed_check trace]
  constructor
  · intro d hd
    exact Checker.count_finish (hregistered.balanced_end hd (hP d hd)) false
  · intro f hf hunsigned hf' d hd hmem
    exact hregistered.failed_of_mem_freeNames
      (nodup_append.mp hnodup).2.1 hP hf hunsigned hf' hd hmem

/-- `broken = missing`. -/
private def broken : Definition :=
  { name := "broken", body := .var .synthetic "missing" }

/-- `typed : Int` and `broken` refer to names that are declared later or not at all. -/
private def brokenModule : Module where
  declarations := [
    Declaration.definition {
        name := "typed"
        declared := some ⟨.named "Int", .synthetic⟩
        body := .var .synthetic "broken" },
    Declaration.data { name := "Color", variants := [{ name := "Red" }] },
    Declaration.definition broken]

set_option maxRecDepth 100000 in
open Checker in
private theorem broken_mem_failed : "broken" ∈ (brokenModule.check false).failed := by
  have hinferred : (declareModule {} brokenModule).inferred = [broken] := rfl
  have hwaves : wavesOf [broken] = [[[broken]]] := by cbv
  have hwave : "broken" ∈ ((declareModule {} brokenModule).inferWave [[broken]]).failed := by
    decide +kernel
  obtain ⟨_, _, -, hsettled, -⟩ :=
    (declareModule {} brokenModule).inferComponents.settled_checkDeclared
  rw [Module.failed_check]
  refine (hsettled.failed _).mpr (.inl ?_)
  change _ ∈ ((wavesOf _).foldl inferWave _).failed
  rwa [hinferred, hwaves]

/-- `broken` fails, so `typed` does, and there is no signature of it. -/
theorem Module.check_accounts_for_definitions_broken :
    brokenModule.declaredNames = ["Color", "Red", "typed", "broken"] ∧
      "broken" ∈ (brokenModule.check false).failed ∧ "typed" ∈ (brokenModule.check false).failed ∧
        ((brokenModule.check false).signatures.map (·.name)).count "typed" = 0 := by
  obtain ⟨hcount, hspreads⟩ :=
    Module.check_accounts_for_definitions brokenModule false (by decide) (by decide)
  have htyped := hspreads _ (mem_cons_of_mem _ mem_cons_self) rfl broken_mem_failed _ mem_cons_self
    (by decide)
  have hnone := hcount _ mem_cons_self
  rw [if_pos htyped] at hnone
  exact ⟨rfl, broken_mem_failed, htyped, hnone⟩

end RowTyping
