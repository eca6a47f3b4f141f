import Mathlib.Data.List.Perm.Basic
import RowTyping.Check.Module
import RowTyping.Proofs.Dependencies.Waves
import RowTyping.Proofs.Infer.Scoping

/-!
# What a wave settles

Definitions that are inferred together get a type together or fail together. A wave therefore splits
its components into those that are bound and those that fail, and a component that refers to a
failed name is among the latter. What a definition refers to is settled in an earlier wave or stands
in its own component.
-/

namespace RowTyping

open List

/-- The names of definitions. -/
def namesOf (ds : List Definition) : List String :=
  ds.map (·.name.node)

theorem mem_namesOf {d : Definition} {ds : List Definition} (h : d ∈ ds) :
    d.name.node ∈ namesOf ds :=
  mem_map_of_mem h

theorem namesOf_append (ds ds' : List Definition) :
    namesOf (ds ++ ds') = namesOf ds ++ namesOf ds' :=
  map_append

/-! ## Outcomes -/

/-- The outcome reports the schemes of the first names, or all of the second names fail. -/
inductive Outcome.Settles (reported names : List String) (o : Outcome) : Prop where
  | bound (schemes : o.schemes.map (·.1) = reported) (failures : o.failures = [])
  | failed (schemes : o.schemes = []) (failures : (o.failures.map (·.1)).Perm names)

namespace Component

variable {reg : Registry} {st : InferState} {ds : List Definition} {k : Nat} {b : Blame}
  {ms : List Member} {residual : List (List Obligation)}

/-- The blame falls on one of `n` members from position `k` on. -/
def Blame.Within (k n : Nat) (b : Blame) : Prop :=
  k ≤ b.member ∧ b.member < k + n

theorem Blame.Within.succ {n : Nat} (h : b.Within (k + 1) n) : b.Within k (n + 1) := by
  unfold Within at h ⊢
  omega

/-- Members always get types; these are bound in a scope of their own. -/
theorem bindMembers_spec (ds : List Definition) (st : InferState) :
    ∃ ts st', bindMembers ds st = .ok (ds.zip ts) st' ∧ ts.length = ds.length ∧
      st'.env = (ds.zip ts).foldl
        (fun env m => env.bind m.1.name.node (.mono m.2)) st.env.push := by
  obtain ⟨ts, st₁, hts, hlen, henv⟩ := Infer.freshTypes_spec ds st
  refine ⟨ts, _, bind_eq_ok.mpr ⟨ts, st₁, hts, bind_eq_ok.mpr ⟨_, _, rfl, rfl⟩⟩, hlen, ?_⟩
  simp only [← henv]

theorem ends_inferBodies (reg : Registry) (k : Nat) (members : List (Definition × Ty))
    (st : InferState) :
    Ends (inferBodies reg k members) st
      (fun ms _ => ms.map (·.definition) = members.map (·.1)) (Blame.Within k members.length) := by
  induction members generalizing k st with
  | nil => exact .pure rfl
  | cons m rest ih =>
    obtain ⟨d, t⟩ := m
    refine Ends.bind (Q := fun m _ => m.definition = d) ?_ fun m st' hm =>
      ((ih _ _).imp (fun _ _ h => h) fun _ hb => hb.succ).bind
        fun ms _ hms => .pure (by simp [hm, hms])
    refine .intro (fun m st' hm => ?_) fun b st' hb => ?_
    · rcases hrun : (inferBody reg d t *> takeMember d t) st with ⟨m', st₁⟩ | ⟨e, st₁⟩
      · simp only [EStateM.run, hrun] at hm
        obtain ⟨rfl, -⟩ := EStateM.Result.ok.inj hm
        rw [seqRight_eq_bind, bind_eq_ok] at hrun
        obtain ⟨_, _, -, htake⟩ := hrun
        exact congrArg Member.definition (Prod.mk.inj (modifyGet_eq_ok.mp htake)).1.symm
      · simp only [EStateM.run, hrun] at hm
        cases hm
    · rcases hrun : (inferBody reg d t *> takeMember d t) st with ⟨m', st₁⟩ | ⟨e, st₁⟩
      · simp only [EStateM.run, hrun] at hb
        cases hb
      · simp only [EStateM.run, hrun] at hb
        cases hb
        simp [Blame.Within]

/-- What is related to the members of a list comes from them. -/
theorem of_mem_forall₂ {α β : Type} {R : α → β → Prop} {as : List α} {bs : List β}
    (h : Forall₂ R as bs) : ∀ b ∈ bs, ∃ a ∈ as, R a b := by
  induction h with
  | nil => exact nofun
  | cons hab _ ih =>
    refine forall_mem_cons.mpr ⟨⟨_, .head _, hab⟩, fun b hb => ?_⟩
    obtain ⟨a, ha, hab⟩ := ih b hb
    exact ⟨a, .tail _ ha, hab⟩

section ForEach

variable {α : Type} {step : Nat → Member → Except TypingError α} {as : List α}

theorem forEach_cons_ok {m : Member} (h : forEach step k (m :: ms) = .ok as) :
    ∃ a rest, step k m = .ok a ∧ forEach step (k + 1) ms = .ok rest ∧ as = a :: rest := by
  rw [forEach] at h
  split at h
  · rename_i a ha
    obtain ⟨rest, hrest, h⟩ := except_bind_eq_ok.mp h
    cases h
    exact ⟨a, rest, ha, hrest, rfl⟩
  · cases h

/-- Members and the results of their steps, which may depend on the positions of the members. -/
theorem forall₂_forEach {R : Member → α → Prop}
    (hR : ∀ j m a, ms[j]? = some m → step (k + j) m = .ok a → R m a)
    (h : forEach step k ms = .ok as) : Forall₂ R ms as := by
  induction ms generalizing k as with
  | nil =>
    cases h
    exact .nil
  | cons m ms ih =>
    obtain ⟨a, rest, ha, hrest, rfl⟩ := forEach_cons_ok h
    refine .cons (hR 0 m a rfl ha) (ih (fun j m' a' hm' ha' => hR (j + 1) m' a' hm' ?_) hrest)
    rwa [← Nat.add_assoc, Nat.add_right_comm]

/-- The blame falls on a member for an error of its step. -/
theorem blame_forEach (h : forEach step k ms = .error b) :
    b.Within k ms.length ∧ ∃ j, ∃ m ∈ ms, step j m = .error b.error := by
  induction ms generalizing k with
  | nil => cases h
  | cons m ms ih =>
    rw [forEach] at h
    split at h
    · rcases except_bind_eq_error.mp h with h | ⟨rest, -, h⟩
      · obtain ⟨hwithin, j, m', hm', hstep⟩ := ih h
        exact ⟨hwithin.succ, j, m', .tail _ hm', hstep⟩
      · cases h
    · rename_i e he
      cases h
      exact ⟨by simp [Blame.Within], k, m, .head _, he⟩

end ForEach

/-- What a generalised member is reported with. -/
theorem generalizeMember_ok {m : Member} {entry : String × Scheme × Span}
    (h : generalizeMember st residual k m = .ok entry) : entry.1 = m.definition.name.node ∧
      ∃ deferred, generalize m.type (relevant residual k (st.subst.apply m.type)) st.subst {}
        st.names = .ok (entry.2.1, deferred) := by
  obtain ⟨⟨σ, deferred⟩, hgen, h⟩ := except_bind_eq_ok.mp h
  cases h
  exact ⟨rfl, deferred, hgen⟩

/-- The schemes bear the names of the members. -/
theorem names_generalizeAll {schemes : List (String × Scheme × Span)}
    (h : generalizeAll st residual ms = .ok schemes) :
    schemes.map (·.1) = namesOf (ms.map (·.definition)) := by
  rw [namesOf, map_map, eq_comm, ← forall₂_eq_eq_eq, forall₂_map_left_iff, forall₂_map_right_iff]
  exact forall₂_forEach (fun _ _ _ _ hm => (generalizeMember_ok hm).1.symm) h

/-- Every scheme of a component is that of a member, generalised over what is relevant to it. -/
theorem of_mem_generalizeAll {schemes : List (String × Scheme × Span)}
    (h : generalizeAll st residual ms = .ok schemes) :
    ∀ entry ∈ schemes, ∃ m ∈ ms, ∃ j deferred,
      generalize m.type (relevant residual j (st.subst.apply m.type)) st.subst {} st.names =
        .ok (entry.2.1, deferred) :=
  of_mem_forall₂ (forall₂_forEach (fun j _ _ _ hm => ⟨0 + j, (generalizeMember_ok hm).2⟩) h)

/-- Solving and generalising blames a member, and never for an unbound variable. -/
theorem blame_conclude {events : BindingEvents} (h : conclude reg st events ms = .error b) :
    b.Within 0 ms.length ∧ b.error.SpeaksPlainly := by
  rw [conclude, except_bind_eq_error] at h
  rcases h with h | ⟨solved, -, h⟩
  · obtain ⟨hwithin, -, m, -, hsolve⟩ := blame_forEach h
    exact ⟨hwithin, Infer.speaksPlainly_solve hsolve⟩
  · rcases except_bind_eq_error.mp h with h | ⟨schemes, -, h⟩
    · obtain ⟨hwithin, _, m, -, hgen⟩ := blame_forEach h
      refine ⟨hwithin, ?_⟩
      rcases except_bind_eq_error.mp hgen with hgen | ⟨_, -, hgen⟩
      · exact Infer.speaksPlainly_generalize hgen
      · cases hgen
    · cases h

theorem names_conclude {events : BindingEvents} {o : Outcome}
    (h : conclude reg st events ms = .ok o) :
    o.schemes.map (·.1) = namesOf (ms.map (·.definition)) ∧ o.failures = [] := by
  rw [conclude, except_bind_eq_ok] at h
  obtain ⟨solved, -, h⟩ := h
  obtain ⟨schemes, hschemes, h⟩ := except_bind_eq_ok.mp h
  cases h
  exact ⟨names_generalizeAll hschemes, rfl⟩

theorem settles_failure (hb : b.member < ds.length) (events : BindingEvents) :
    (failure ds events b).Settles (namesOf ds) (namesOf ds) := by
  refine .failed rfl ?_
  have hnames : (failure ds events b).failures.map (·.1) =
      (ds[b.member] :: ds.eraseIdx b.member).map (·.name.node) := by
    simp [failure, hb]
  rw [hnames]
  exact (getElem_cons_eraseIdx_perm hb).map _

/-- The members of a component are bound together or fail together. -/
theorem settles_infer (reg : Registry) (env : Env) (pool : Pool) (ds : List Definition) :
    (infer reg env pool ds).1.Settles (namesOf ds) (namesOf ds) := by
  obtain ⟨ts, st₁, hbind, hlen, -⟩ :=
    bindMembers_spec ds (InferState.start { supply := .pooled, pool } env)
  have hbodies := ends_inferBodies reg 0 (ds.zip ts) st₁
  have hfst : (ds.zip ts).map (·.1) = ds := map_fst_zip (Nat.le_of_eq hlen.symm)
  simp only [infer, EStateM.run, hbind]
  split
  · rename_i b st hrun
    have hb := (hbodies.error hrun).2
    exact settles_failure (by simpa [hlen] using hb) _
  · rename_i ms st hrun
    have hms := (hbodies.ok hrun).trans hfst
    split
    · rename_i o ho
      obtain ⟨hschemes, hfailures⟩ := names_conclude ho
      exact .bound (hms ▸ hschemes) hfailures
    · rename_i b hb
      have hlen : ms.length = ds.length := by rw [← hms, length_map]
      have hb := (blame_conclude hb).1.2
      exact settles_failure (by simpa [hlen] using hb) _

end Component

theorem DeclaredTask.settles_check (reg : Registry) (env : Env) (pool : Pool)
    (task : DeclaredTask) :
    (task.check reg env pool).1.Settles (if task.isReported then [task.label] else [])
    [task.label] := by
  rcases hrun : (Infer.checkDeclared reg task.definition task.scheme task.allowed).run
    (InferState.start { supply := .pooled, pool } env) with ⟨resolved, st⟩ | ⟨e, st⟩
  · refine .bound ?_ (by simp only [check, hrun])
    simp only [check, hrun]
    split <;> rfl
  · exact .failed (by simp only [check, hrun]) (by simp [check, hrun])

/-! ## Steps of the checker -/

/-- The diagnostic says that the name depends on a failed one. -/
def Diagnostic.ReportsDependency (diag : Diagnostic) (name : String) : Prop :=
  ∃ dependency span, diag = (TypingError.dependencyFailed dependency span).toDiagnostic name

namespace Checker

variable {c c' c'' : Checker}

theorem foldl_bindingFailed (c : Checker) (failures : List (String × TypingError)) :
    failures.foldl (fun c (name, e) => c.bindingFailed name e) c =
      { c with
        diagnostics := c.diagnostics ++ failures.map fun f => f.2.toDiagnostic f.1
        failed := failures.foldl (fun failed f => Sorted.insert f.1 failed) c.failed } := by
  induction failures generalizing c with
  | nil => simp
  | cons f failures ih =>
    rw [foldl_cons, ih]
    simp [bindingFailed, report, markFailed]

theorem mem_foldl_insert {n : String} {failed : List String}
    {failures : List (String × TypingError)} :
    n ∈ failures.foldl (fun failed f => Sorted.insert f.1 failed) failed ↔
      n ∈ failed ∨ n ∈ failures.map (·.1) := by
  induction failures generalizing failed with
  | nil => simp
  | cons f failures ih =>
    rw [foldl_cons, ih, Sorted.mem_insert, map_cons, mem_cons]
    tauto

/-- Names failed because they depend on failed ones, and nothing else happened. -/
structure Blocks (names : List String) (c c' : Checker) : Prop where
  rest : c' = { c with diagnostics := c'.diagnostics, failed := c'.failed }
  failed : ∀ n, n ∈ c'.failed ↔ n ∈ c.failed ∨ n ∈ names
  kept : ∀ diag ∈ c.diagnostics, diag ∈ c'.diagnostics
  reported : ∀ n ∈ names, ∃ diag ∈ c'.diagnostics, diag.ReportsDependency n
  new : ∀ diag ∈ c'.diagnostics, diag ∈ c.diagnostics ∨ ∃ n, diag.ReportsDependency n

theorem Blocks.refl (c : Checker) : Blocks [] c c :=
  ⟨rfl, by simp, fun _ h => h, nofun, fun _ h => .inl h⟩

theorem Blocks.trans {names names' : List String} (h : Blocks names c c')
    (h' : Blocks names' c' c'') :
    Blocks (names ++ names') c c'' where
  rest := by
    rw [h'.rest]
    conv => lhs; rw [h.rest]
  failed n := by
    rw [h'.failed, h.failed, mem_append]
    tauto
  kept diag hdiag := h'.kept diag (h.kept diag hdiag)
  reported n hn := by
    rcases mem_append.mp hn with hn | hn
    · obtain ⟨diag, hdiag, hreports⟩ := h.reported n hn
      exact ⟨diag, h'.kept diag hdiag, hreports⟩
    · exact h'.reported n hn
  new diag hdiag := (h'.new diag hdiag).elim (h.new diag) .inr

theorem blocks_foldl (c : Checker) (failures : List (String × TypingError))
    (h : ∀ f ∈ failures, ∃ dependency span, f.2 = .dependencyFailed dependency span) :
    Blocks (failures.map (·.1)) c
      (failures.foldl (fun c (name, e) => c.bindingFailed name e) c) := by
  rw [foldl_bindingFailed]
  have hreports : ∀ f ∈ failures, (f.2.toDiagnostic f.1).ReportsDependency f.1 := fun f hf => by
    obtain ⟨dependency, span, he⟩ := h f hf
    exact ⟨dependency, span, by rw [he]⟩
  refine ⟨rfl, fun n => mem_foldl_insert, fun diag hdiag => mem_append_left _ hdiag,
    fun n hn => ?_, fun diag hdiag => ?_⟩
  · obtain ⟨f, hf, rfl⟩ := mem_map.mp hn
    exact ⟨_, mem_append_right _ (mem_map_of_mem hf), hreports f hf⟩
  · refine (mem_append.mp hdiag).imp_right fun hdiag => ?_
    obtain ⟨f, hf, rfl⟩ := mem_map.mp hdiag
    exact ⟨f.1, hreports f hf⟩

/-- Components that refer to a failed name are set apart and fail. -/
theorem runnableComponents_spec (c : Checker) (wave : List (List Definition)) :
    ∃ blocked, ((c.runnableComponents wave).1 ++ blocked).Perm wave ∧
      Blocks (blocked.flatMap namesOf) c (c.runnableComponents wave).2 ∧
      ∀ ds ∈ (c.runnableComponents wave).1, ∀ d ∈ ds, ∀ n ∈ d.freeNames, n ∉ c.failed := by
  induction wave generalizing c with
  | nil => exact ⟨[], .refl _, .refl c, nofun⟩
  | cons ds rest ih =>
    rw [runnableComponents]
    split
    · rename_i hfind
      obtain ⟨blocked, hperm, hblocks, hfree⟩ := ih c
      refine ⟨blocked, hperm.cons ds, hblocks, forall_mem_cons.mpr ⟨fun d hd n hn => ?_, hfree⟩⟩
      simpa using find?_eq_none.mp hfind n (mem_flatMap.mpr ⟨d, hd, hn⟩)
    · rename_i dependency _
      have hfold : ds.foldl (fun c d =>
          c.bindingFailed d.name.node (.dependencyFailed dependency d.name.span)) c =
          (ds.map fun d => (d.name.node, TypingError.dependencyFailed dependency d.name.span)).foldl
            (fun c (name, e) => c.bindingFailed name e) c := by rw [foldl_map]
      have hblocks₁ : Blocks (namesOf ds) c (ds.foldl (fun c d =>
          c.bindingFailed d.name.node (.dependencyFailed dependency d.name.span)) c) := by
        rw [hfold]
        have h := blocks_foldl c
          (ds.map fun d => (d.name.node, .dependencyFailed dependency d.name.span)) (by simp)
        rwa [map_map] at h
      obtain ⟨blocked, hperm, hblocks, hfree⟩ := ih (ds.foldl (fun c d =>
        c.bindingFailed d.name.node (.dependencyFailed dependency d.name.span)) c)
      refine ⟨ds :: blocked, perm_middle.trans (hperm.cons ds), hblocks₁.trans hblocks, ?_⟩
      exact fun ds' hds' d hd n hn hfailed =>
        hfree ds' hds' d hd n hn ((hblocks₁.failed n).mpr (.inl hfailed))

/-- Tasks that refer to a failed name are set apart and fail. -/
theorem runnableTasks_spec (c : Checker) (tasks : List DeclaredTask) :
    ∃ blocked, ((c.runnableTasks tasks).1 ++ blocked).Perm tasks ∧
      Blocks (blocked.map (·.label)) c (c.runnableTasks tasks).2 ∧
      ∀ task ∈ (c.runnableTasks tasks).1, ∀ n ∈ task.definition.freeNames, n ∉ c.failed := by
  induction tasks generalizing c with
  | nil => exact ⟨[], .refl _, .refl c, nofun⟩
  | cons task rest ih =>
    rw [runnableTasks]
    split
    · rename_i hfind
      obtain ⟨blocked, hperm, hblocks, hfree⟩ := ih c
      refine ⟨blocked, hperm.cons task, hblocks, forall_mem_cons.mpr ⟨fun n hn => ?_, hfree⟩⟩
      simpa using find?_eq_none.mp hfind n hn
    · rename_i dependency _
      have hblocks₁ : Blocks [task.label] c (c.bindingFailed task.label
          (.dependencyFailed dependency task.definition.name.span)) :=
        blocks_foldl c [(task.label, .dependencyFailed dependency _)] (by simp)
      obtain ⟨blocked, hperm, hblocks, hfree⟩ := ih (c.bindingFailed task.label
        (.dependencyFailed dependency task.definition.name.span))
      refine ⟨task :: blocked, perm_middle.trans (hperm.cons task), hblocks₁.trans hblocks, ?_⟩
      exact fun task' htask' n hn hfailed =>
        hfree task' htask' n hn ((hblocks₁.failed n).mpr (.inl hfailed))

/-- Names got a type or failed, and signatures were reported. -/
structure Settled (bound failed reported : List String) (c c' : Checker) : Prop where
  registry : c'.registry = c.registry
  inferred : c'.inferred = c.inferred
  declared : c'.declared = c.declared
  global : ∀ n, c'.env.hasGlobal n ↔ c.env.hasGlobal n ∨ n ∈ bound
  failed : ∀ n, n ∈ c'.failed ↔ n ∈ c.failed ∨ n ∈ failed
  signatures : (c'.signatures.map (·.name)).Perm (c.signatures.map (·.name) ++ reported)
  kept : ∀ diag ∈ c.diagnostics, diag ∈ c'.diagnostics

section Settled

variable {bound failed reported bound' failed' reported' : List String}

theorem Settled.refl (c : Checker) : Settled [] [] [] c c :=
  ⟨rfl, rfl, rfl, by simp, by simp, by simp, fun _ h => h⟩

theorem Settled.trans (h : Settled bound failed reported c c')
    (h' : Settled bound' failed' reported' c' c'') :
    Settled (bound ++ bound') (failed ++ failed') (reported ++ reported') c c'' where
  registry := h'.registry.trans h.registry
  inferred := h'.inferred.trans h.inferred
  declared := h'.declared.trans h.declared
  global n := by
    rw [h'.global, h.global, mem_append]
    tauto
  failed n := by
    rw [h'.failed, h.failed, mem_append]
    tauto
  signatures := by
    refine h'.signatures.trans ((h.signatures.append_right _).trans ?_)
    rw [append_assoc]
  kept diag hdiag := h'.kept diag (h.kept diag hdiag)

theorem Blocks.settled {names : List String} (h : Blocks names c c') :
    Settled [] names [] c c' where
  registry := by rw [h.rest]
  inferred := by rw [h.rest]
  declared := by rw [h.rest]
  global n := by
    rw [h.rest]
    simp
  failed := h.failed
  signatures := by
    rw [h.rest]
    simp
  kept := h.kept

end Settled

theorem hasGlobal_bindGlobal {env : Env} {name n : String} {σ : Scheme} :
    (env.bindGlobal name σ).hasGlobal n ↔ env.hasGlobal n ∨ n = name := by
  simp only [Env.bindGlobal, Env.hasGlobal, Dict.contains, Dict.get?_insert]
  by_cases h : n = name <;> simp [h]

theorem settled_absorbScheme (isInferred : Bool) (c : Checker) (entry : String × Scheme × Span) :
    Settled (if isInferred then [entry.1] else []) [] [entry.1] c
      (absorbScheme isInferred c entry) := by
  cases isInferred
  · exact ⟨rfl, rfl, rfl, by simp [absorbScheme, addSignature], by simp [absorbScheme,
      addSignature],
      by simp [absorbScheme, addSignature, Signature.ofScheme], fun _ h => h⟩
  · exact ⟨rfl, rfl, rfl, by simp [absorbScheme, addSignature, bindGlobal, hasGlobal_bindGlobal],
      by simp [absorbScheme, addSignature, bindGlobal],
      by simp [absorbScheme, addSignature, bindGlobal, Signature.ofScheme], fun _ h => h⟩

theorem settled_foldl_absorbScheme (isInferred : Bool) (c : Checker)
    (schemes : List (String × Scheme × Span)) :
    Settled (if isInferred then schemes.map (·.1) else []) [] (schemes.map (·.1)) c
      (schemes.foldl (absorbScheme isInferred) c) := by
  induction schemes generalizing c with
  | nil => cases isInferred <;> exact .refl c
  | cons entry schemes ih =>
    have h := (settled_absorbScheme isInferred c entry).trans (ih (absorbScheme isInferred c entry))
    cases isInferred <;> exact h

theorem settled_absorb (isInferred : Bool) (c : Checker) (o : Outcome) :
    Settled (if isInferred then o.schemes.map (·.1) else []) (o.failures.map (·.1))
      (o.schemes.map (·.1)) c (absorb isInferred c o) := by
  have hschemes := settled_foldl_absorbScheme isInferred c o.schemes
  rw [absorb, foldl_bindingFailed]
  refine ⟨hschemes.registry, hschemes.inferred, hschemes.declared, hschemes.global, fun n => ?_,
    hschemes.signatures, fun diag hdiag => ?_⟩
  · rw [mem_foldl_insert, hschemes.failed]
    simp
  · exact mem_append_left _ (mem_append_left _ (hschemes.kept diag hdiag))

/-- Checks that settle their subjects settle a whole list, each subject in one of two ways. -/
theorem settled_runAll {α : Type} {check : Pool → α → Outcome × Pool}
    {reported names : α → List String}
    (hcheck : ∀ pool a, (check pool a).1.Settles (reported a) (names a)) (isInferred : Bool)
    (c : Checker) (pool : Pool) (as : List α) :
    ∃ bound failed : List α, (bound ++ failed).Perm as ∧
      Settled (if isInferred then bound.flatMap reported else []) (failed.flatMap names)
        (bound.flatMap reported) c ((runAll check pool as).1.foldl (absorb isInferred) c) := by
  induction as generalizing c pool with
  | nil =>
    refine ⟨[], [], .refl _, ?_⟩
    cases isInferred <;> exact .refl c
  | cons a as ih =>
    obtain ⟨bound, failed, hperm, hrest⟩ :=
      ih (absorb isInferred c (check pool a).1) (check pool a).2
    have hstep := settled_absorb isInferred c (check pool a).1
    rcases hcheck pool a with ⟨hschemes, hfailures⟩ | ⟨hschemes, hfailures⟩
    · refine ⟨a :: bound, failed, hperm.cons a, ?_⟩
      rw [hschemes, hfailures] at hstep
      have h := hstep.trans hrest
      cases isInferred <;> exact h
    · refine ⟨bound, a :: failed, perm_middle.trans (hperm.cons a), ?_⟩
      have h := hstep.trans hrest
      rw [hschemes] at h
      have hmem (n : String) : n ∈ (check pool a).1.failures.map (·.1) ++ failed.flatMap names ↔
          n ∈ (a :: failed).flatMap names := by
        rw [flatMap_cons, mem_append, mem_append, hfailures.mem_iff]
      refine ⟨h.registry, h.inferred, h.declared, ?_,
        fun n => (h.failed n).trans (or_congr_right (hmem n)),
        h.signatures, h.kept⟩
      have hglobal := h.global
      cases isInferred <;> exact hglobal

/-- The subjects that do not refer to failed names are checked, the others fail. -/
theorem settled_run {α : Type} {check : Pool → α → Outcome × Pool}
    {reported names : α → List String}
    (hcheck : ∀ pool a, (check pool a).1.Settles (reported a) (names a)) (isInferred : Bool)
    {as runnable blocked : List α} (hperm : (runnable ++ blocked).Perm as)
    (hblocks : Blocks (blocked.flatMap names) c c') :
    ∃ bound failed : List α, (bound ++ failed).Perm as ∧ (∀ a ∈ bound, a ∈ runnable) ∧
      Settled (if isInferred then bound.flatMap reported else []) (failed.flatMap names)
        (bound.flatMap reported) c
          ((runAll check c'.fresh.pool runnable).1.foldl (absorb isInferred)
          (c'.setPool (runAll check c'.fresh.pool runnable).2)) := by
  have hpool (pool : Pool) : Settled [] [] [] c' (c'.setPool pool) :=
    ⟨rfl, rfl, rfl, by simp [setPool], by simp [setPool], by simp [setPool], fun _ h => h⟩
  obtain ⟨bound, failed, hperm', hsettled⟩ := settled_runAll hcheck isInferred
    (c'.setPool (runAll check c'.fresh.pool runnable).2) c'.fresh.pool runnable
  refine ⟨bound, blocked ++ failed, ?_, fun a ha => hperm'.subset (mem_append_left _ ha), ?_⟩
  · refine List.Perm.trans ?_ ((hperm'.append_right blocked).trans hperm)
    rw [append_assoc]
    exact perm_append_comm.append_left _
  · rw [flatMap_append]
    exact hblocks.settled.trans ((hpool _).trans hsettled)

/-- A wave binds some of its components, none of which refers to a failed name, and the others
fail. -/
theorem settled_inferWave (c : Checker) (wave : List (List Definition)) :
    ∃ bound failed : List (List Definition), (bound ++ failed).Perm wave ∧
      Settled (bound.flatMap namesOf) (failed.flatMap namesOf) (bound.flatMap namesOf) c
        (c.inferWave wave) ∧
      ∀ ds ∈ bound, ∀ d ∈ ds, ∀ n ∈ d.freeNames, n ∉ c.failed := by
  obtain ⟨blocked, hperm, hblocks, hfree⟩ := c.runnableComponents_spec wave
  obtain ⟨bound, failed, hperm', hrunnable, hsettled⟩ :=
    settled_run (Component.settles_infer _ _) true hperm hblocks
  exact ⟨bound, failed, hperm', hsettled, fun ds hds => hfree ds (hrunnable ds hds)⟩

/-- The labels of the tasks whose signatures are part of the report. -/
def reportedLabels (tasks : List DeclaredTask) : List String :=
  tasks.flatMap fun task => if task.isReported then [task.label] else []

/-- Tasks succeed, then none refers to a failed name, or fail. -/
theorem settled_checkDeclared (c : Checker) :
    ∃ bound failed : List DeclaredTask, (bound ++ failed).Perm c.declared ∧
      Settled [] (failed.map (·.label)) (reportedLabels bound) c c.checkDeclared ∧
      ∀ task ∈ bound, ∀ n ∈ task.definition.freeNames, n ∉ c.failed := by
  obtain ⟨blocked, hperm, hblocks, hfree⟩ := c.runnableTasks_spec c.declared
  rw [map_eq_flatMap] at hblocks
  obtain ⟨bound, failed, hperm', hrunnable, hsettled⟩ :=
    settled_run (DeclaredTask.settles_check _ _) false hperm hblocks
  rw [← map_eq_flatMap] at hsettled
  exact ⟨bound, failed, hperm', hsettled, fun task htask => hfree task (hrunnable task htask)⟩

/-! ## The waves of a module -/

/-- The waves in which definitions are inferred. -/
def wavesOf (ds : List Definition) : List (List (List Definition)) :=
  (Dependencies.waves (dependencyGraph ds)).map (·.map (·.filterMap (ds[·]?)))

theorem settled_foldl_inferWave (c : Checker) (waves : List (List (List Definition))) :
    ∃ bound failed reported, Settled bound failed reported c (waves.foldl inferWave c) := by
  induction waves generalizing c with
  | nil => exact ⟨[], [], [], .refl c⟩
  | cons wave rest ih =>
    obtain ⟨bound, failed, -, hwave, -⟩ := c.settled_inferWave wave
    obtain ⟨bound', failed', reported', hrest⟩ := ih (c.inferWave wave)
    exact ⟨_, _, _, hwave.trans hrest⟩

theorem declared_inferComponents (c : Checker) : c.inferComponents.declared = c.declared := by
  obtain ⟨_, _, _, hsettled⟩ := settled_foldl_inferWave c (wavesOf c.inferred)
  exact hsettled.declared

/-- What a definition refers to among the given names stands in its own component or was done
before. -/
def InOrder (names done : List String) : List (List (List Definition)) → Prop
  | [] => True
  | wave :: rest =>
    (∀ ds ∈ wave, ∀ d ∈ ds, ∀ n ∈ d.freeNames, n ∈ names → n ∈ namesOf ds ∨ n ∈ done) ∧
      InOrder names (namesOf wave.flatten ++ done) rest

section Waves

variable {ds : List Definition}

theorem mem_depsOf_dependencyGraph {v w : Nat} :
    w ∈ Dependencies.depsOf (dependencyGraph ds) v ↔
      ∃ d, ds[v]? = some d ∧ ∃ n ∈ d.freeNames, (namesOf ds).idxOf? n = some w := by
  simp only [Dependencies.depsOf, dependencyGraph, namesOf, getD_eq_getElem?_getD,
    getElem?_map]
  rcases ds[v]? with _ | d <;> simp

theorem lt_length_of_mem_depsOf {v w : Nat}
    (h : w ∈ Dependencies.depsOf (dependencyGraph ds) v) : w < (dependencyGraph ds).length := by
  obtain ⟨d, -, n, -, hn⟩ := mem_depsOf_dependencyGraph.mp h
  have hlt := (idxOf?_eq_some_iff.mp hn).1
  simpa [dependencyGraph, namesOf] using hlt

theorem filterMap_getElem?_range {α : Type} (as : List α) :
    (List.range as.length).filterMap (as[·]?) = as := by
  induction as with
  | nil => rfl
  | cons a as ih =>
    rw [length_cons, range_succ_eq_map, filterMap_cons, filterMap_map]
    simpa [Function.comp_def] using ih

/-- Every definition is in exactly one component of one wave. -/
theorem wavesOf_flatten_perm (ds : List Definition) : (wavesOf ds).flatten.flatten.Perm ds := by
  have hperm := Dependencies.waves_flatten_perm (dependencyGraph ds)
  have hlen : (dependencyGraph ds).length = ds.length := by simp [dependencyGraph]
  rw [hlen] at hperm
  have h := hperm.filterMap (ds[·]?)
  rw [filterMap_getElem?_range, filterMap_flatten, map_flatten] at h
  exact h

theorem inOrder_map {waves : List (List (List Nat))} {done : List Nat} {doneNames : List String}
    (h : Dependencies.InOrder (dependencyGraph ds) done waves)
    (hdone : ∀ w ∈ done, ∀ d, ds[w]? = some d → d.name.node ∈ doneNames) :
    InOrder (namesOf ds) doneNames (waves.map (·.map (·.filterMap (ds[·]?)))) := by
  induction waves generalizing done doneNames with
  | nil => trivial
  | cons wave rest ih =>
    refine ⟨fun comp hcomp d hd n hn hname => ?_, ih h.2 fun w hw d hd => ?_⟩
    · obtain ⟨c, hc, rfl⟩ := mem_map.mp hcomp
      obtain ⟨v, hv, hvd⟩ := mem_filterMap.mp hd
      obtain ⟨w, hw⟩ := Option.isSome_iff_exists.mp (isSome_idxOf?.mpr hname)
      obtain ⟨hlt, heq, -⟩ := idxOf?_eq_some_iff.mp hw
      have hlt' : w < ds.length := by simpa [namesOf] using hlt
      have hd' : ds[w].name.node = n := by simpa [namesOf] using heq
      rcases h.1 c hc v hv w (mem_depsOf_dependencyGraph.mpr ⟨d, hvd, n, hn, hw⟩) with hin | hin
      · exact .inl (hd' ▸ mem_namesOf (mem_filterMap.mpr ⟨w, hin, by simp [hlt']⟩))
      · exact .inr (hd' ▸ hdone w hin _ (by simp [hlt']))
    · rcases mem_append.mp hw with hw | hw
      · obtain ⟨c, hc, hwc⟩ := mem_flatten.mp hw
        refine mem_append_left _ (mem_namesOf (mem_flatten.mpr ⟨_, mem_map_of_mem hc, ?_⟩))
        exact mem_filterMap.mpr ⟨w, hwc, hd⟩
      · exact mem_append_right _ (hdone w hw d hd)

/-- What a definition refers to is in its own component or in an earlier wave. -/
theorem inOrder_wavesOf (ds : List Definition) : InOrder (namesOf ds) [] (wavesOf ds) :=
  inOrder_map (Dependencies.inOrder_waves fun _ _ => lt_length_of_mem_depsOf) fun _ hw =>
    absurd hw not_mem_nil

end Waves

end Checker

end RowTyping
