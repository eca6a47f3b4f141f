import RowTyping.Proofs.Check.Recorded

/-!
# Declared types are well kinded

Every type that a declaration leaves behind is read in a scope in which different names have
different variables; it has only variables of this scope, and all its data types have the arguments
they declare. This includes the signatures that the operations of an implementation are checked
against. There the parameter of the trait, which may be applied to arguments, is replaced by a bare
type constructor: all operations of a trait apply the parameter to the same number of arguments, and
an implementation is turned down unless its type constructor takes just as many.
-/

namespace RowTyping

open List

/-- The types that a module writes for global names: those of operations of effects and of traits,
and signatures of definitions. -/
def Module.writtenTypes (m : Module) : List (String × TypeExpr) :=
  m.allEffectDecls.flatMap (fun d => d.operations.map
    fun o => (o.name.node, o.written d.name.node)) ++
    m.traitDecls.flatMap (fun d => d.methods.map fun o => (o.name.node, o.type.node)) ++
    m.definitions.filterMap fun d => d.declared.map fun w => (d.name.node, w.node)

/-- The type is well kinded and what the written type means when names stand for what the naming
says. Its variables are in the scope, where different names have different variables. -/
structure TypeScope.Stores (reg : Registry) (scope : TypeScope) (ν : Naming) (w : TypeExpr)
    (t : Ty) :
    Prop where
  types_inj : ∀ {n n' v}, scope.type? n = some v → scope.type? n' = some v → n = n'
  effects_inj : ∀ {n n' e}, scope.effect? n = some e → scope.effect? n' = some e → n = n'
  means : w.type? reg ν = some t
  kinded : t.WellKinded reg.dataTypes.arity?
  inScope : t.Over scope.Has

variable {reg : Registry} {P : Region} {scope : TypeScope} {w : TypeExpr} {t : Ty} {σ : Scheme}

theorem TypeScope.Reads.stores (h : scope.Reads reg w t) (hd : scope.Distinct) :
    scope.Stores reg scope.naming w t where
  types_inj := hd.type?_inj
  effects_inj := hd.effect?_inj
  means := h.means scope.naming_follows
  kinded := h.wellKinded
  inScope := h.inScope

theorem Scheme.Written.stores {givens : List Given} (h : Scheme.Written reg P w scope givens σ) :
    scope.Stores reg scope.naming w σ.type :=
  h.reads.stores h.distinct

/-- The scope of the parameters of a data type has different variables. -/
theorem DataDecl.Gives.distinct_closed {decl : DataDecl} {d : DataType} (h : decl.Gives reg d) :
    (TypeScope.closed (d.params.map Prod.swap)).Distinct := by
  refine ⟨?_, nodup_nil⟩
  have hvars : (d.params.map Prod.swap).map (·.2) = d.paramVars := by
    rw [map_map]
    rfl
  rw [TypeScope.closed, hvars]
  exact h.distinct

/-- The type of a constructor as a value is well kinded. -/
theorem DataDecl.Gives.wellKinded_constructorScheme {decl : DataDecl} {d : DataType}
    (h : decl.Gives reg d) (hd : reg.dataTypes.get? d.name = some d) {con : Constructor}
    (hcon : con ∈ d.constructors) :
    (d.constructorScheme con).type.WellKinded reg.dataTypes.arity? := by
  have hresult : d.resultType.WellKinded reg.dataTypes.arity? := by
    refine .named ?_ (forall_mem_map.mpr fun v _ => .var v)
    simp [DataTypes.arity?, hd, DataType.arity, DataType.paramVars]
  obtain ⟨v, -, hv⟩ := h.constructors con hcon
  have hkinded : ∀ t ∈ con.fields, t.WellKinded reg.dataTypes.arity? :=
    hv.forall_fields TypeScope.Reads.wellKinded
  rw [DataType.constructorScheme]
  dsimp only
  split
  · exact hresult
  · exact .fn hkinded hresult

/-- The signature of an operation at a type constructor that takes the arguments of the
parameter. -/
theorem Scheme.Written.stores_specialize {d : TraitDecl} {trait : Trait} {o : MethodDecl}
    {givens : List Given} (h : Scheme.Written reg P o.type.node scope givens σ)
    (hparam : scope.type? d.param.node = some trait.param) (ho : o ∈ d.methods)
    (htakes : d.TakesParam trait.paramArity) {head : Ty} (hhead : head.IsConstructor)
    (hfits : head.Takes reg.dataTypes.arity? trait.paramArity) :
    scope.Stores reg (scope.naming.fix d.param.node head) o.type.node
      (trait.specialize head σ).type ∧
      .type trait.param ∉ (trait.specialize head σ).type.occurrences := by
  refine ⟨⟨h.distinct.type?_inj, h.distinct.effect?_inj, ?_, ?_, fun x hx => ?_⟩, fun hx => ?_⟩
  · exact h.reads.type?_fix hhead h.distinct hparam (.prim .unit) rfl
  · refine h.reads.wellKinded_fix hhead h.distinct hparam fun k hk => ?_
    rw [htakes o ho k hk]
    exact hfits
  · exact h.reads.inScope x (mem_occurrences_fixed hhead hx).1
  · exact (mem_occurrences_fixed hhead hx).2 rfl

namespace Module.GivesGlobal

variable {m : Module} {name : String}

/-- A global name that is no constructor has the type that the module writes for it. -/
theorem stores (h : m.GivesGlobal m.definitions reg P name σ) :
    (∃ n d con, reg.dataTypes.get? n = some d ∧ con ∈ d.constructors ∧ con.name = name ∧
      σ = d.constructorScheme con) ∨
    ∃ w, ∃ scope :
    TypeScope, (name, w) ∈ m.writtenTypes ∧ scope.Stores reg scope.naming w σ.type := by
  cases h with
  | constructor hd hcon hname hσ => exact .inl ⟨_, _, _, hd, hcon, hname, hσ⟩
  | operation hd ho hname hσ =>
    refine .inr ⟨_, _, mem_append_left _ (mem_append_left _ ?_), hσ.stores⟩
    exact mem_flatMap.mpr ⟨_, hd, mem_map.mpr ⟨_, ho, by rw [hname]⟩⟩
  | method hd ho hname hσ =>
    obtain ⟨scope, bounds, -, hσ⟩ := hσ
    refine .inr ⟨_, scope, mem_append_left _ (mem_append_right _ ?_), hσ.stores⟩
    exact mem_flatMap.mpr ⟨_, hd, mem_map.mpr ⟨_, ho, by rw [hname]⟩⟩
  | signed hd hname hwritten hσ =>
    refine .inr ⟨_, _, mem_append_right _ ?_, hσ.stores⟩
    exact mem_filterMap.mpr ⟨_, hd, by rw [hwritten, ← hname]; rfl⟩

end Module.GivesGlobal

/-- The types that declarations leave behind are well kinded and stay in their scopes: the fields of
constructors, the types of operations and of definitions with a signature, and the signatures that
definitions are checked against. For an operation of an implementation this is the type written in
the trait, read with the trait's parameter as the type constructor of the implementation. -/
theorem declared_types_wellKinded (m : Module) :
    let c := Checker.declareModule {} m
    (∀ n d con, c.registry.dataTypes.get? n = some d → con ∈ d.constructors →
      ∃ decl ∈ m.allDataDecls, decl.name.node = n ∧
        ∃ v ∈ decl.variants, v.name.node = con.name ∧
          Forall₂ ((TypeScope.closed (d.params.map Prod.swap)).Stores c.registry
            (TypeScope.closed (d.params.map Prod.swap)).naming) v.fields con.fields) ∧
    (∀ name σ, c.env.globals.get? name = some σ → σ.type.WellKinded c.registry.dataTypes.arity? ∧
      ((∃ n d con, c.registry.dataTypes.get? n = some d ∧ con ∈ d.constructors ∧ con.name = name ∧
        σ = d.constructorScheme con) ∨
      ∃ w, ∃ scope : TypeScope, (name, w) ∈ m.writtenTypes ∧
        scope.Stores c.registry scope.naming w σ.type)) ∧
    (∀ n t method, c.registry.traits.get? n = some t → method ∈ t.methods →
      ∃ d ∈ m.traitDecls, d.name.node = n ∧ ∃ o ∈ d.methods, o.name.node = method.name ∧
        ∃ scope : TypeScope, scope.type? d.param.node = some t.param ∧
          scope.Stores c.registry scope.naming o.type.node method.scheme.type) ∧
    ∀ task ∈ c.declared,
      (∃ d ∈ m.definitions, ∃ written, ∃ scope : TypeScope,
        task.definition = d ∧ d.declared = some written ∧
        scope.Stores c.registry scope.naming written.node task.scheme.type) ∨
      ∃ block ∈ m.implDecls, ∃ d ∈ block.methods, task.definition = d ∧
        ∃ decl ∈ m.traitDecls, decl.name.node = block.traitName.node ∧
        ∃ o ∈ decl.methods, o.name.node = d.name.node ∧
        ∃ head arity param, ∃ scope : TypeScope,
          c.registry.dataTypes.implHead? block.typeName.node = some (head, arity) ∧
          scope.type? decl.param.node = some param ∧
          scope.Stores c.registry (scope.naming.fix decl.param.node head) o.type.node
            task.scheme.type ∧
          .type param ∉ task.scheme.type.occurrences := by
  intro c
  have hrecorded := Checker.recorded_declareModule m
  have hlinked := hrecorded.linked
  refine ⟨fun n d con hd hcon => ?_, fun name σ hσ => ⟨?_, (hrecorded.globals hσ).stores⟩,
    fun n t method ht hmethod => ?_, fun task htask => ?_⟩
  · obtain ⟨decl, hdecl, hgives⟩ := hrecorded.data hd
    obtain ⟨v, hv, hname, hfields⟩ := hgives.constructors con hcon
    exact ⟨decl, hdecl, hgives.name.symm.trans (hlinked.name hd), v, hv, hname,
      hfields.imp fun _ _ hread => hread.stores hgives.distinct_closed⟩
  · rcases (hrecorded.globals hσ).stores with ⟨n, d, con, hd, hcon, -, rfl⟩ | ⟨w, scope, -, hstores⟩
    · obtain ⟨decl, -, hgives⟩ := hrecorded.data hd
      exact hgives.wellKinded_constructorScheme (hlinked.name hd ▸ hd) hcon
    · exact hstores.kinded
  · obtain ⟨d, hd, hname, hgives⟩ := hrecorded.traits ht
    obtain ⟨o, ho, hmethodName, scope, bounds, hparam, hwritten⟩ := hgives.methods method hmethod
    exact ⟨d, hd, hname, o, ho, hmethodName, scope, hparam, hwritten.stores⟩
  · cases (hrecorded.declared task htask).1 with
    | signed hd hwritten hσ heq =>
      subst heq
      exact Or.inl ⟨_, hd, _, _, rfl, hwritten, hσ.stores⟩
    | @operation block d decl t head method hblock hd hdecl hname ht hhead hmethod heq =>
      subst heq
      obtain ⟨hconstructor, htakes⟩ := DataTypes.takes_of_implHead? hhead
      obtain ⟨o, ho, hmethodName, scope, bounds, hparam, hwritten⟩ :=
        ht.methods method (mem_of_find?_eq_some hmethod)
      obtain ⟨hstores, hgone⟩ := hwritten.stores_specialize hparam ho ht.takes hconstructor htakes
      have hfound : method.name = d.name.node := by simpa using find?_some hmethod
      exact Or.inr ⟨block, hblock, d, hd, rfl, decl, hdecl, hname, o, ho, hmethodName.trans hfound,
        head, t.paramArity, t.param, scope, hhead, hparam, hstores, hgone⟩

/-- A module with a data type `Box a` and a trait whose operation `wrap : a -> f a` it
implements. -/
private def boxModule : Module where
  declarations := [
    Declaration.data {
        name := "Box"
        params := ["a"]
        variants := [{ name := "Box", fields := [.named "a"] }] },
    Declaration.trait {
        name := "Wrap"
        param := "f"
        methods := [{
          name := "wrap"
          type := ⟨.function [.named "a"] (.applied "f" [.named "a"]) .pure, .synthetic⟩ }] },
    Declaration.impl {
        traitName := "Wrap"
        typeName := "Box"
        methods := [{
          name := "wrap"
          params := [.var .synthetic "x"]
          body := .call .synthetic (.var .synthetic "Box") [.var .synthetic "x"] }] }]

private theorem declared_boxModule :
    (Checker.declareModule {} boxModule).declared.map (·.scheme.type) =
      [.fn [.var ⟨3⟩] (.named "Box" [.var ⟨3⟩]) .pure] := by decide +kernel

/-- The operation `wrap` of `Box` is checked against `a -> Box a`, where `Box` has its one
argument. -/
theorem declared_types_wellKinded_box :
    ∃ task ∈ (Checker.declareModule {} boxModule).declared,
      task.scheme.type = .fn [.var ⟨3⟩] (.named "Box" [.var ⟨3⟩]) .pure ∧
      task.scheme.type.WellKinded
        (Checker.declareModule {} boxModule).registry.dataTypes.arity? := by
  obtain ⟨task, htask, htype⟩ := mem_map.mp
    (declared_boxModule ▸ mem_singleton_self _ : _ ∈
      (Checker.declareModule {} boxModule).declared.map (·.scheme.type))
  refine ⟨task, htask, htype, ?_⟩
  rcases (declared_types_wellKinded boxModule).2.2.2 task htask with
    ⟨_, _, _, _, _, _, hstores⟩ | ⟨_, _, _, _, _, _, _, _, _, _, _, _, _, _, _, _, _, hstores, _⟩
  · exact hstores.kinded
  · exact hstores.kinded

end RowTyping
