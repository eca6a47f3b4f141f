import RowTyping.Proofs.Check.Complete
import RowTyping.Proofs.Check.Kinds
import RowTyping.Proofs.Check.Outcomes
import RowTyping.Proofs.Check.Resolvable

/-!
# Resolutions are backed by implementations

An implementation is entered even if its block lacks operations or defines too many, and a trait
even if some of its operations are dropped. But then an error is reported. In a module without
errors a resolution names an implementation of the only block for its trait and type, its operations
are those of the trait, and the definition of each has passed the check against the type the trait
writes, read with the trait's parameter as the type of the block.
-/

namespace RowTyping

open List

/-! ## Where resolutions come from -/

/-- The resolution names an implementation that is entered for its trait under some type. -/
def Resolution.FoundIn (ts : Traits) (r : Resolution) : Prop :=
  ∃ typeName impl, ts.impl? r.traitName typeName = some impl ∧ r.typeName = impl.typeName ∧
    r.operations = impl.methods

theorem Traits.foundIn_of_solve {ts : Traits} {s : Subst} {obs : List Obligation} {solved : Solved}
    (h : ts.solve s obs = .ok solved) : ∀ r ∈ solved.resolved, r.FoundIn ts := by
  intro r hr
  obtain ⟨ob, -, impl, himpl, rfl⟩ := (solve_origin h).1 r hr
  obtain ⟨head, -, himpl⟩ := Option.bind_eq_some_iff.mp himpl
  exact ⟨head, impl, himpl, rfl, rfl⟩

theorem Component.foundIn_infer (reg : Registry) (env : Env) (pool : Pool) (ds : List Definition) :
    ∀ entry ∈ (infer reg env pool ds).1.resolutions, entry.2.FoundIn reg.traits := by
  intro entry hentry
  rcases infer_cases reg env pool ds with ⟨_, _, ms, st, label, -, -, hconclude⟩ | ⟨-, hnone, -⟩
  · obtain ⟨obs, solved, hsolve, hmem⟩ := resolved_of_conclude hconclude entry hentry
    exact Traits.foundIn_of_solve hsolve _ hmem
  · rw [hnone] at hentry
    cases hentry

theorem Infer.foundIn_checkDeclared {reg : Registry} {d : Definition} {σ : Scheme}
    {allowed : List Given} {st st' : InferState} {resolved : List Resolution}
    (h : checkDeclared reg d σ allowed st = .ok resolved st') :
    ∀ r ∈ resolved, r.FoundIn reg.traits := by
  simp only [checkDeclared, bind_eq_ok, get_eq_ok, takeObligations, modifyGet_eq_ok, ofExcept_eq_ok,
    pure_eq_ok] at h
  obtain ⟨_, _, -, _, _, -, obs, _, -, _, _, ⟨rfl, rfl⟩, solved, _, ⟨hsolve, rfl⟩, _, _, -,
      rfl, -⟩ := h
  exact Traits.foundIn_of_solve hsolve

theorem DeclaredTask.foundIn_check (reg : Registry) (env : Env) (pool : Pool)
    (task : DeclaredTask) :
    ∀ entry ∈ (task.check reg env pool).1.resolutions, entry.2.FoundIn reg.traits := by
  intro entry hentry
  rw [check] at hentry
  split at hentry
  · rename_i resolved st hrun
    obtain ⟨r, hr, rfl⟩ := mem_map.mp hentry
    exact Infer.foundIn_checkDeclared hrun r hr
  · cases hentry

namespace Checker

variable {c : Checker}

/-! ## Checks against signatures -/

/-- The checks of definitions against declared schemes, with the states they start in. -/
def signatureChecks (c : Checker) : List (InferState × DeclaredTask) :=
  c.taskRuns.map fun r => (.start r.pool.ready r.checker.env, r.subject)

/-- If nothing fails, every definition with a declared scheme is checked and passes. -/
theorem Poised.passes_of_not_hasError (hpoised : c.Poised) (h : ¬ c.checkDeclared.HasError)
    {task : DeclaredTask} (htask : task ∈ c.declared) :
    ∃ st resolved st', (st, task) ∈ c.signatureChecks ∧
      Infer.checkDeclared c.registry task.definition task.scheme task.allowed st =
        .ok resolved st' := by
  obtain ⟨blocked, hperm, hblocks, -⟩ := c.runnableTasks_spec c.declared
  -- a task that is set apart leaves an error
  have hrunnable : task ∈ (c.runnableTasks c.declared).1 := by
    refine (mem_append.mp (hperm.mem_iff.mpr htask)).resolve_right fun hblocked => h ?_
    obtain ⟨diag, hdiag, dependency, span, rfl⟩ := hblocks.reported _ (mem_map_of_mem hblocked)
    exact ⟨_, (gathers_afterRuns DeclaredTask.check false _ _).kept _ hdiag, rfl⟩
  rw [← map_subject_runs _ DeclaredTask.check (c.runnableTasks c.declared).2.fresh.pool
    (c.runnableTasks c.declared).1] at hrunnable
  obtain ⟨r, hr, rfl⟩ := mem_map.mp hrunnable
  have hregistry := (hpoised.taskRuns r hr).1.registry
  rcases hcheck : Infer.checkDeclared c.registry r.subject.definition r.subject.scheme
    r.subject.allowed (.start r.pool.ready r.checker.env) with ⟨resolved, st'⟩ | ⟨e, st'⟩
  · exact ⟨_, resolved, st', mem_map_of_mem hr, hcheck⟩
  · -- so does one that fails
    refine (h ⟨e.toDiagnostic r.subject.label, ?_, rfl⟩).elim
    refine c.gathers_checkDeclared.reported _ (mem_map_of_mem hr) _ (mem_append_left _ ?_)
    rw [← hregistry, Pool.ready] at hcheck
    simp only [Run.on, DeclaredTask.check, EStateM.run, hcheck, map_cons]
    exact .head _

end Checker

/-- The checks that are made against declared schemes when a module is checked. -/
def Module.signatureChecks (m : Module) (trace : Bool) : List (InferState × DeclaredTask) :=
  ((Checker.declareModule {} m).setTracing trace).inferComponents.signatureChecks

/-! ## Modules -/

/-- The task is to check a definition against an operation whose scheme is given, with the parameter
of its trait as the given type. It quantifies over the other variables of the operation, and may
assume the requirements that are still on a variable. -/
structure DeclaredTask.Specializes (task : DeclaredTask) (t : Trait) (head : Ty) (σ : Scheme) :
    Prop where
  scheme : task.scheme = t.specialize head σ
  typeVars : task.scheme.typeVars = σ.typeVars.filter (· != t.param)
  effectVars : task.scheme.effectVars = σ.effectVars
  type : task.scheme.type = (Subst.empty.bindType t.param head).apply σ.type
  givens : task.scheme.givens = task.allowed
  allowed : task.allowed =
    (σ.givens.map fun g => ⟨g.traitName, (Subst.empty.bindType t.param head).apply g.type⟩).filter
      (·.type.headVar?.isSome)

/-- The task is to check a definition of a block for the given type against an operation of a trait.
The scheme of the operation is what the trait writes, quantified over the scope in which it is read,
and the type that is checked is what the trait writes with the parameter as the type constructor of
the block. -/
structure DeclaredTask.ChecksAgainst (reg : Registry) (task : DeclaredTask) (typeName : String)
    (decl : TraitDecl) (o : MethodDecl) (t : Trait) (head : Ty) (method : Method)
    (scope : TypeScope) (bounds : List Given) : Prop where
  ofTrait : reg.traits.get? decl.name.node = some t
  operation : t.method? o.name.node = some method
  takes : reg.dataTypes.implHead? typeName = some (head, t.paramArity)
  param : scope.type? decl.param.node = some t.param
  onVars : scope.Bounds (⟨decl.name.node, .var t.param⟩ :: bounds)
  written : method.scheme =
    scope.scheme method.scheme.type (groupByTrait (⟨decl.name.node, .var t.param⟩ :: bounds))
  specializes : task.Specializes t head method.scheme
  stores : scope.Stores reg (scope.naming.fix decl.param.node head) o.type.node task.scheme.type

/-- The resolution is backed by a block for its trait and type and by the declaration of its trait:
the block defines exactly the operations of the trait, each once, and each is to be checked against
the operation, with the trait's parameter as the type constructor of the block. -/
structure Resolution.BackedBy (c : Checker) (r : Resolution) (block : ImplDecl) (decl : TraitDecl) :
    Prop where
  operations : r.operations = block.methods.map (·.name.node)
  nodup : r.operations.Nodup
  exact : r.operations.Perm (decl.methods.map (·.name.node))
  tasks : ∀ o ∈ decl.methods, ∃ d ∈ block.methods, d.name.node = o.name.node ∧
    ∃ task ∈ c.declared, task.definition = d ∧ ∃ t head method scope bounds,
      task.ChecksAgainst c.registry r.typeName decl o t head method scope bounds

theorem Trait.of_method? {t : Trait} {name : String} {method : Method}
    (h : t.method? name = some method) :
    method ∈ t.methods ∧ method.name = name := by
  rw [method?] at h
  exact ⟨mem_of_find?_eq_some h, by simpa using find?_some h⟩

/-- A block that gives an implementation defines the operations of its trait. -/
theorem ImplDecl.GivesAll.perm {c : Checker} {block : ImplDecl} {t : Trait} {head : Ty}
    {impl : Implementation} (h : block.GivesAll c t head impl)
    (ht : (t.methods.map (·.name)).Nodup) :
    impl.methods.Perm (t.methods.map (·.name)) := by
  refine (perm_ext_iff_of_nodup h.nodup ht).mpr fun name => ⟨fun hmem => ?_, fun hmem => ?_⟩
  · -- a definition that is no operation would have been turned down
    rw [h.methods] at hmem
    obtain ⟨d, hd, rfl⟩ := mem_map.mp hmem
    obtain ⟨method, hmethod, -⟩ := h.tasks d hd
    obtain ⟨hmem, hname⟩ := Trait.of_method? hmethod
    exact mem_map.mpr ⟨method, hmem, hname⟩
  · obtain ⟨method, hmethod, rfl⟩ := mem_map.mp hmem
    exact h.all method hmethod

namespace Checker

variable {m : Module} {ds : List Definition} {c : Checker}

/-- The entries for a block and its trait back every resolution by its implementation. -/
theorem backedBy_of_givesAll {block : ImplDecl} {decl : TraitDecl} {t : Trait} {head : Ty}
    {impl : Implementation} {r : Resolution} (hblock : block.GivesAll c t head impl)
    (hall : decl.GivesAll t) {P : Region} (hdecl : decl.Gives c.registry P t)
    (htrait : decl.name.node = block.traitName.node) (htype : r.typeName = impl.typeName)
    (hoperations : r.operations = impl.methods) : r.BackedBy c block decl := by
  obtain ⟨hnames, hnodup⟩ := hall
  refine ⟨hoperations.trans hblock.methods, hoperations ▸ hblock.nodup, ?_, fun o ho => ?_⟩
  · rw [hoperations, ← hnames]
    exact hblock.perm hnodup
  · -- the block defines an operation of this name
    have hname : o.name.node ∈ block.methods.map (·.name.node) := by
      rw [← hblock.methods]
      refine (hblock.perm hnodup).mem_iff.mpr ?_
      rw [hnames]
      exact mem_map_of_mem ho
    obtain ⟨d, hd, hdname⟩ := mem_map.mp hname
    obtain ⟨method, hmethod, htask⟩ := hblock.tasks d hd
    obtain ⟨hmem, hmethodName⟩ := Trait.of_method? hmethod
    obtain ⟨o', ho', hoName, scope, bounds, hparam, hwritten⟩ := hdecl.methods method hmem
    -- operations of a trait have different names, so this is the one the method comes from
    obtain rfl : o' = o := by
      rw [hnames] at hnodup
      exact inj_on_of_nodup_map hnodup ho' ho (hoName.trans (hmethodName.trans hdname))
    obtain ⟨hconstructor, htakes⟩ := DataTypes.takes_of_implHead? hblock.takes
    obtain ⟨hstores, -⟩ := hwritten.stores_specialize hparam ho hdecl.takes hconstructor htakes
    refine ⟨d, hd, hdname, _, htask, rfl, t, head, method, scope, bounds,
      { ofTrait := htrait ▸ hblock.trait
        operation := hdname ▸ hmethod
        takes := ?_
        param := hparam
        onVars := hwritten.onVars
        written := hwritten.eq
        specializes := ⟨rfl, rfl, rfl, rfl, rfl, rfl⟩
        stores := hstores }⟩
    rw [htype, hblock.typeName]
    exact hblock.takes

/-- What a complete record of traits and implementations says about a resolution. -/
theorem Recorded.backed (h : c.Recorded m ds) (htraits : TraitsComplete m.traitDecls c)
    (himpls : ImplsComplete m.implDecls c) {r : Resolution} (hr : r.FoundIn c.registry.traits) :
    ∃ block ∈ m.implDecls, ∃ decl ∈ m.traitDecls, block.key = (r.traitName, r.typeName) ∧
      decl.name.node = r.traitName ∧ r.BackedBy c block decl := by
  obtain ⟨typeName, impl, himpl, htype, hoperations⟩ := hr
  obtain ⟨block, hblock, hkey⟩ := himpls.only (k := (r.traitName, typeName)) himpl
  obtain ⟨impl', himpl', t, head, hgives⟩ := himpls.entered block hblock
  obtain rfl : impl = impl' := by
    rw [hkey, himpl] at himpl'
    exact Option.some.inj himpl'
  obtain ⟨htraitName, -⟩ := Prod.mk.inj hkey
  obtain ⟨decl, hdecl, hname, hdeclGives⟩ := h.traits hgives.trait
  obtain ⟨t', ht', hall⟩ := htraits.entered decl hdecl
  obtain rfl : t = t' := by
    rw [hname, hgives.trait] at ht'
    exact Option.some.inj ht'
  refine ⟨block, hblock, decl, hdecl, ?_, hname.trans htraitName,
    backedBy_of_givesAll hgives hall hdeclGives hname htype hoperations⟩
  rw [ImplDecl.key, htraitName, htype, hgives.typeName]

theorem Poised.foundIn_checkDeclared (hpoised : c.Poised) (h : c.resolutions = []) :
    ∀ entry ∈ c.inferComponents.checkDeclared.resolutions, entry.2.FoundIn c.registry.traits := by
  have hwaves := c.gathers_inferComponents
  obtain ⟨hpoised', hvalid⟩ := hpoised.inferComponents
  intro entry hentry
  rw [(gathers_checkDeclared _).resolutions, hwaves.resolutions, h, nil_append] at hentry
  simp only [outcomes, flatMap_map, mem_append, mem_flatMap] at hentry
  rcases hentry with ⟨r, hr, hentry⟩ | ⟨r, hr, hentry⟩
  · rw [← (hvalid r hr).registry]
    exact Component.foundIn_infer _ _ _ _ entry hentry
  · rw [← hwaves.registry, ← (hpoised'.taskRuns r hr).1.registry]
    exact DeclaredTask.foundIn_check _ _ _ _ entry hentry

/-- Errors stay while definitions are inferred and checked. -/
theorem HasError.checkDeclared (h : c.HasError) : c.inferComponents.checkDeclared.HasError := by
  obtain ⟨diag, hdiag, herror⟩ := h
  have hwaves := c.gathers_inferComponents.kept diag hdiag
  exact ⟨diag, c.inferComponents.gathers_checkDeclared.kept diag hwaves, herror⟩

end Checker

/-- In a module without errors every resolution is backed by an implementation: there is exactly one
block for its trait and type, its operations are exactly those of the trait, each once, and the
definition of each has passed the check against the operation with the trait's parameter as the type
constructor of the block. The check is for all other variables of the operation and under the
requirements that remain. -/
theorem Module.resolutions_backed (m : Module) (trace : Bool)
    (h : (m.check trace).hasErrors = false) :
    let reg := (Checker.declareModule {} m).registry
    ∀ binding r, (binding, r) ∈ (m.check trace).resolutions → ∃ block decl,
      m.implDecls.filter (fun b => (b.traitName.node, b.typeName.node) =
        (r.traitName, r.typeName)) = [block] ∧
      m.traitDecls.filter (fun d => d.name.node = r.traitName) = [decl] ∧
      r.operations.Nodup ∧ r.operations.Perm (decl.methods.map (·.name.node)) ∧
      r.operations = block.methods.map (·.name.node) ∧
      ∀ o ∈ decl.methods, ∃ d ∈ block.methods, d.name.node = o.name.node ∧
        ∃ st task resolved st', (st, task) ∈ m.signatureChecks trace ∧ task.definition = d ∧
          Infer.checkDeclared reg d task.scheme task.allowed st = .ok resolved st' ∧
          ∃ t head method scope bounds,
            task.ChecksAgainst reg r.typeName decl o t head method scope bounds := by
  have hcomplete := Checker.declareModule_complete m
  have hrecorded := Checker.recorded_declareModule m
  have hnone := hrecorded.resolutions
  have hpoised := (Checker.ready_declareModule m).poised.setTracing trace
  simp only [Module.check, Checker.finish, Report.hasErrors] at h
  simp only [Module.check, Checker.finish, Module.signatureChecks]
  generalize Checker.declareModule {} m = c at h hcomplete hrecorded hnone hpoised ⊢
  intro binding r hr
  have hclean : ¬ (c.setTracing trace).inferComponents.checkDeclared.HasError := by
    rintro ⟨diag, hdiag, herror⟩
    exact any_eq_false.mp h diag hdiag herror
  have hfound := hpoised.foundIn_checkDeclared hnone _ hr
  obtain ⟨htraits, himpls⟩ := hcomplete.resolve_left fun herror =>
    hclean (Checker.HasError.checkDeclared (c := c.setTracing trace) herror)
  obtain ⟨block, hblock, decl, hdecl, hkey, hname, hbacked⟩ :=
    hrecorded.backed htraits himpls hfound
  refine ⟨block, decl, ?_, ?_, hbacked.nodup, hbacked.exact, hbacked.operations, fun o ho => ?_⟩
  · exact hkey ▸ filter_eq_singleton_of_nodup_map himpls.nodup hblock
  · exact hname ▸ filter_eq_singleton_of_nodup_map htraits.nodup hdecl
  · obtain ⟨d, hd, hdname, task, htask, rfl, hread⟩ := hbacked.tasks o ho
    have hwaits : task ∈ (c.setTracing trace).inferComponents.declared := by
      rw [Checker.declared_inferComponents]
      exact htask
    obtain ⟨st, resolved, st', hmem, hpasses⟩ := hpoised.inferComponents.1.passes_of_not_hasError
      hclean hwaits
    rw [(c.setTracing trace).gathers_inferComponents.registry] at hpasses
    exact ⟨task.definition, hd, hdname, st, task, resolved, st', hmem, rfl, hpasses, hread⟩

/-- A module with a trait `Show` whose operation takes a second value that can be shown, an
implementation for numbers and a function `f` that shows one. -/
private def numberModule : Module where
  declarations := [
    Declaration.trait {
        name := "Show"
        param := "a"
        methods := [{
          name := "show"
          type := ⟨.function [.named "a", .named "b"] (.named "String") (.var "e"), .synthetic⟩
          given := [⟨"Show", "b"⟩] }] },
    Declaration.impl {
        traitName := "Show"
        typeName := "Int"
        methods := [{
          name := "show"
          params := [.wildcard .synthetic, .wildcard .synthetic]
          body := .lit .synthetic (.string "number") }] },
    Declaration.definition {
        name := "f"
        params := [.wildcard .synthetic]
        body := .call .synthetic (.var .synthetic "show")
          [.lit .synthetic (.int 1), .lit .synthetic (.int 2)] }]

/-- The resolution of the call in `f`. -/
private def shownNumber : Resolution := ⟨"Show", "Int", ["show"], .synthetic⟩

set_option maxRecDepth 100000 in
private theorem check_numberModule :
    ((numberModule.check false).hasErrors, (numberModule.check false).resolutions) =
      (false, [("f", shownNumber), ("f", shownNumber)]) := by cbv

/-- What the only signature check of the module is against. -/
private def shownAgainst : List TypeVar × List EffectVar × Ty × List Given :=
  ([⟨2⟩], [⟨0⟩], .fn [.prim .int, .var ⟨2⟩] (.prim .string) (.ofVar ⟨0⟩), [⟨"Show", .var ⟨2⟩⟩])

set_option maxRecDepth 100000 in
private theorem signatureChecks_numberModule :
    (numberModule.signatureChecks false).map (fun check => (check.2.scheme.typeVars,
      check.2.scheme.effectVars, check.2.scheme.type, check.2.allowed)) = [shownAgainst] := by cbv

/-- The call of `show` in `f` is met by the only block for `Show Int`, whose `show` has passed the
check against `Int -> b -> String can e` for all `b` and `e`, where `b` can be shown. -/
theorem Module.resolutions_backed_number :
    (numberModule.check false).hasErrors = false ∧
    ("f", shownNumber) ∈ (numberModule.check false).resolutions ∧
    ∃ block, numberModule.implDecls.filter
        (fun b => (b.traitName.node, b.typeName.node) = ("Show", "Int")) = [block] ∧
      ∃ d ∈ block.methods, d.name.node = "show" ∧
        ∃ st task resolved st', (st, task) ∈ numberModule.signatureChecks false ∧
          task.definition = d ∧
          Infer.checkDeclared (Checker.declareModule {} numberModule).registry d task.scheme
            task.allowed st = .ok resolved st' ∧
          (task.scheme.typeVars, task.scheme.effectVars, task.scheme.type, task.allowed) =
            shownAgainst ∧
          ∃ decl o t head method scope bounds, task.ChecksAgainst
            (Checker.declareModule {} numberModule).registry "Int" decl o t head method scope
              bounds := by
  obtain ⟨hclean, hresolutions⟩ := Prod.mk.inj check_numberModule
  have hmem : ("f", shownNumber) ∈ (numberModule.check false).resolutions := by
    rw [hresolutions]
    exact .head _
  obtain ⟨block, decl, hblock, -, -, hperm, -, hpasses⟩ :=
    resolutions_backed numberModule false hclean "f" shownNumber hmem
  obtain ⟨o, ho, hname⟩ := mem_map.mp (hperm.mem_iff.mp (mem_singleton_self "show"))
  obtain ⟨d, hd, hdname, st, task, resolved, st', htask, hdefinition, hok, hagainst⟩ := hpasses o ho
  have hshown := mem_map_of_mem (f := fun check : InferState × DeclaredTask =>
    (check.2.scheme.typeVars, check.2.scheme.effectVars, check.2.scheme.type,
      check.2.allowed)) htask
  rw [signatureChecks_numberModule] at hshown
  exact ⟨hclean, hmem, block, hblock, d, hd, hdname.trans hname, st, task, resolved, st', htask,
    hdefinition, hok, mem_singleton.mp hshown, decl, o, hagainst⟩

end RowTyping
