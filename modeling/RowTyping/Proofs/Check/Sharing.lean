import RowTyping.Proofs.Check.Requirements

/-!
# Requirements of definitions that refer to each other

The members of a component are solved one by one and generalised together. A member's scheme
requires what the bodies of all members leave unsolved, as far as its type can express it: an
obligation of its own body that its type cannot express is an error, one of another body is left out
(`Component.requirements_shared`).
-/

namespace RowTyping

open List

/-! ## Solving -/

theorem Ty.mem_occurrences_of_headVar? {t : Ty} {v : TypeVar} (h : t.headVar? = some v) :
    .type v ∈ t.occurrences := by
  induction t with
  | var w => simp [Ty.occurrences, Option.some.inj h]
  | app head args ih =>
    rw [Ty.occurrences]
    exact mem_append_left _ (ih h)
  | prim | named | fn | tuple => cases h

/-- Solving keeps the obligations that cannot be decided. -/
theorem Traits.solve_residual {ts : Traits} {s : Subst} {obs : List Obligation} {solved : Solved}
    (h : ts.solve s obs = .ok solved) (g : Given) :
    (∃ kept ∈ solved.residual, kept.toGiven = g) ↔
      ∃ ob ∈ obs, ob.IsResidual s ∧ g = ⟨ob.traitName, s.apply ob.type⟩ := by
  constructor
  · rintro ⟨kept, hkept, rfl⟩
    obtain ⟨ob, hob, hresidual, rfl⟩ := (solve_origin h).2 kept hkept
    exact ⟨ob, hob, hresidual, rfl⟩
  · rintro ⟨ob, hob, hresidual, rfl⟩
    rcases solve_cases h hob with ⟨impl, himpl, -⟩ | ⟨-, hkept⟩
    · exact absurd hresidual (not_isResidual_of_implementation? himpl)
    · exact hkept

/-! ## Members -/

/-- The type has all type variables of the obligation. -/
def Ty.Expresses (t : Ty) (ob : Obligation) (s : Subst) : Prop :=
  ∀ v, .type v ∈ (s.apply ob.type).occurrences → .type v ∈ (s.apply t).occurrences

namespace Component

/-- The scheme is that of a member whose type expresses what its own body leaves unsolved. Its
requirements are what the bodies of all members leave unsolved and the type of the member
expresses. -/
structure Member.Shares (m : Member) (ms : List Member) (s : Subst) (σ : Scheme) : Prop where
  own : ∀ ob ∈ m.obligations, ob.IsResidual s → m.type.Expresses ob s
  givens : ∃ tails, (∀ e ∈ tails, .effect e ∈ (s.apply m.type).occurrences) ∧
    σ.type = (Generalize.closing tails).apply (s.apply m.type) ∧
    ∀ g, g ∈ σ.givens ↔ ∃ m' ∈ ms, ∃ ob ∈ m'.obligations, ob.IsResidual s ∧ m.type.Expresses ob s ∧
      g = ⟨ob.traitName, (Generalize.closing tails).apply (s.apply ob.type)⟩

variable {reg : Registry} {st : InferState} {ms : List Member} {s : Subst} {k : Nat}
  {obs : List Obligation}

theorem mem_relevant_own {residual : List (List Obligation)} (hk : residual[k]? = some obs)
    {ob : Obligation} (hob : ob ∈ obs) (t : Ty) : ob ∈ relevant residual k t := by
  refine mem_append_left _ ?_
  rwa [getD_eq_getElem?_getD, hk]

theorem mem_relevant_of_typeVars {residual : List (List Obligation)} (hobs : obs ∈ residual)
    {ob : Obligation}
    (hob : ob ∈ obs) (k : Nat) {t : Ty} (ht : ∀ v ∈ ob.type.typeVars, v ∈ t.typeVars) :
    ob ∈ relevant residual k t := by
  obtain ⟨j, hj⟩ := mem_iff_getElem?.mp hobs
  by_cases hjk : j = k
  · exact mem_relevant_own (hjk ▸ hj) hob t
  · refine mem_append_right _ (mem_filter.mpr ⟨mem_flatten.mpr ⟨obs, ?_, hob⟩, ?_⟩)
    · exact mem_eraseIdx_iff_getElem?.mpr ⟨j, hjk, hj⟩
    · simpa using ht

/-- What solving keeps stays as it is when the substitution is applied again. -/
theorem apply_residual {ts : Traits} {solved : Solved} (hs : s.Acyclic)
    (h : ts.solve s obs = .ok solved) :
    ∀ kept ∈ solved.residual, s.apply kept.type = kept.type := by
  intro kept hkept
  obtain ⟨ob, -, -, rfl⟩ := (Traits.solve_origin h).2 kept hkept
  simp only [Obligation.apply]
  rw [Subst.apply_eq_under, Subst.apply_eq_under, ← Ty.under_andThen,
    (Subst.Extends.refl s).andThen_eq hs hs]

/-- A member that is generalised after all were solved shares its requirements with the others. -/
theorem shares_of_generalize {solved : List Solved} {m : Member} {hints : VarNames} {σ : Scheme}
    {deferred : List Obligation} (hs : s.Acyclic) (hsolved : solveAll reg s ms = .ok solved)
    (hk : ms[k]? = some m)
    (h : generalize m.type (relevant (solved.map (·.residual)) k (s.apply m.type)) s {} hints =
      .ok (σ, deferred)) :
    m.Shares ms s σ := by
  obtain ⟨tails, htails, htype, hgivens, hdetermined⟩ := generalize_spec h
  have hexpresses : ∀ kept ∈ relevant (solved.map (·.residual)) k (s.apply m.type), ∀ v,
      .type v ∈ (s.apply kept.type).occurrences → .type v ∈ (s.apply m.type).occurrences :=
    fun kept hkept v hv => (hdetermined kept hkept v hv).resolve_right not_mem_nil
  refine ⟨fun ob hob hresidual => ?_, tails, htails, htype, fun g => (hgivens g).trans ⟨?_, ?_⟩⟩
  · obtain ⟨one, hone, hsolve⟩ := getElem?_solveAll hsolved hk
    obtain ⟨kept, hkept, hgiven⟩ := (Traits.solve_residual hsolve _).mpr ⟨ob, hob, hresidual, rfl⟩
    have hmem : kept ∈ relevant (solved.map (·.residual)) k (s.apply m.type) :=
      mem_relevant_own (by rw [getElem?_map, hone]; rfl) hkept _
    intro v hv
    refine hexpresses kept hmem v ?_
    rw [apply_residual hs hsolve kept hkept, (Given.mk.inj hgiven).2]
    exact hv
  · rintro ⟨kept, hkept, -, rfl⟩
    obtain ⟨obs, hobs, hmem⟩ := mem_of_mem_relevant hkept
    obtain ⟨one, hone, rfl⟩ := mem_map.mp hobs
    obtain ⟨m', hm', hsolve⟩ := of_mem_forall₂ (solveAll_ok hsolved) one hone
    have hsame := apply_residual hs hsolve kept hmem
    obtain ⟨ob, hob, hresidual, hgiven⟩ := (Traits.solve_residual hsolve _).mp ⟨kept, hmem, rfl⟩
    obtain ⟨htrait, hkept'⟩ := Given.mk.inj hgiven
    rw [hkept'] at hsame
    refine ⟨m', hm', ob, hob, hresidual, fun v hv => hexpresses kept hkept v ?_, ?_⟩
    · rwa [hkept', hsame]
    · rw [htrait, hkept', hsame]
  · rintro ⟨m', hm', ob, hob, hresidual, hob', rfl⟩
    obtain ⟨j, hj⟩ := mem_iff_getElem?.mp hm'
    obtain ⟨one, hone, hsolve⟩ := getElem?_solveAll hsolved hj
    obtain ⟨kept, hkept, hgiven⟩ := (Traits.solve_residual hsolve _).mpr ⟨ob, hob, hresidual, rfl⟩
    obtain ⟨htrait, htype'⟩ := Given.mk.inj hgiven
    have hsame := apply_residual hs hsolve kept hkept
    refine ⟨kept, mem_relevant_of_typeVars (mem_map_of_mem (mem_of_getElem? hone)) hkept k
      fun v hv => ?_, ?_, ?_⟩
    · rw [Ty.mem_typeVars, htype'] at hv
      exact Ty.mem_typeVars.mpr (hob' v hv)
    · obtain ⟨v, hv⟩ := Option.isSome_iff_exists.mp hresidual
      refine ⟨v, ?_, not_mem_nil⟩
      rw [hsame, htype']
      exact Ty.mem_occurrences_of_headVar? hv
    · rw [hsame, htrait, htype']

/-- The schemes of a component share their requirements. -/
theorem shares_generalizeAll {solved : List Solved} (hs : st.subst.Acyclic)
    (hsolved : solveAll reg st.subst ms = .ok solved) {schemes : List (String × Scheme × Span)}
    (h : generalizeAll st (solved.map (·.residual)) ms = .ok schemes) :
    Forall₂ (fun m entry => entry.1 = m.definition.name.node ∧ m.Shares ms st.subst entry.2.1)
      ms schemes := by
  refine forall₂_forEach (fun k m entry hk hentry => ?_) h
  rw [Nat.zero_add] at hentry
  obtain ⟨hname, deferred, hgen⟩ := generalizeMember_ok hentry
  exact ⟨hname, shares_of_generalize hs hsolved hk hgen⟩

/-! ## Components -/

/-- The bodies of all members are inferred, and this is what they leave. -/
def Infers (reg : Registry) (env : Env) (pool : Pool) (ds : List Definition) (ms : List Member)
    (st : InferState) : Prop :=
  ∃ members st₁, bindMembers ds (InferState.start pool.ready env) = .ok members st₁ ∧
    inferBodies reg 0 members st₁ = .ok ms st

variable {env : Env} {pool : Pool} {ds : List Definition}

theorem shares_infer (hstart : (InferState.start pool.ready env).Valid reg)
    (h : (infer reg env pool ds).1.failures = []) :
    ∃ ms st, Infers reg env pool ds ms st ∧
      Forall₂ (fun m entry => entry.1 = m.definition.name.node ∧ m.Shares ms st.subst entry.2.1)
        ms (infer reg env pool ds).1.schemes := by
  obtain ⟨members, st₁, ms, st, label, hbind, hbodies, hconclude⟩ := infer_succeeds h
  obtain ⟨hst, -, hts⟩ := bindMembers_ok hstart hbind
  obtain ⟨solved, hsolved, hschemes⟩ := conclude_ok hconclude
  exact ⟨ms, st, ⟨members, st₁, hbind, hbodies⟩, shares_generalizeAll
    (inferBodies_ok hst hts hbodies).valid.subst.acyclic hsolved hschemes⟩

/-- The requirements of definitions that refer to each other. If a component is inferred, the type
of every member expresses what its own body leaves unsolved, and its scheme requires exactly what
the bodies of all members leave unsolved and its type expresses, under the final substitution and
with its tails closed. -/
theorem requirements_shared (hstart : (InferState.start pool.ready env).Valid reg)
    (h : (infer reg env pool ds).1.failures = []) :
    ∃ ms st, Infers reg env pool ds ms st ∧
      Forall₂ (fun m entry => entry.1 = m.definition.name.node ∧
          (∀ ob ∈ m.obligations, ob.IsResidual st.subst → m.type.Expresses ob st.subst) ∧
          ∃ tails, (∀ e ∈ tails, .effect e ∈ (st.subst.apply m.type).occurrences) ∧
            entry.2.1.type = (Generalize.closing tails).apply (st.subst.apply m.type) ∧
            ∀ g, g ∈ entry.2.1.givens ↔ ∃ m' ∈ ms, ∃ ob ∈ m'.obligations, ob.IsResidual st.subst ∧
              m.type.Expresses ob st.subst ∧
              g = ⟨ob.traitName, (Generalize.closing tails).apply (st.subst.apply ob.type)⟩)
        ms (infer reg env pool ds).1.schemes := by
  obtain ⟨ms, st, hinfers, hshares⟩ := shares_infer hstart h
  exact ⟨ms, st, hinfers, hshares.imp fun m entry hentry =>
    ⟨hentry.1, hentry.2.own, hentry.2.givens⟩⟩

/-! ### Two functions that call each other -/

/-- `show : a -> String given Show a`. -/
private def showScheme : Scheme where
  typeVars := [⟨0⟩]
  givens := [⟨"Show", .var ⟨0⟩⟩]
  type := .fn [.var ⟨0⟩] (.prim .string) .pure

/-- The names that both functions may use. -/
private def withShow : Env where
  globals := ⟨[("show", showScheme)]⟩

/-- The pool after the first block of type variables. -/
private def afterFirst : Pool where
  types := { taken := 1 }

private theorem valid_withShow : (InferState.start afterFirst.ready withShow).Valid {} := by
  have hpooled : (Fresh.mk .pooled {}).Pooled :=
    Fresh.pooled_ready ⟨Blocks.spaced_default, Blocks.spaced_default⟩
  -- the variable of `show` is the first one of the block that is taken
  have hdrawn : ¬ afterFirst.ready.Upcoming (.type ⟨0⟩) :=
    (hpooled.distinct.handedOut_typeVar.later hpooled.typeVar.later_ready).2
  have hvars : ∀ x ∈ showScheme.type.occurrences, x = .type ⟨0⟩ := by decide
  have hquantified : ∀ x, x = .type ⟨0⟩ ↔ x ∈ showScheme.quantified := by
    simp [showScheme, Scheme.quantified, eq_comm]
  have husable : showScheme.Usable afterFirst.ready := by
    refine ⟨⟨?_, fun x hx => hvars x hx ▸ hdrawn⟩, fun {x} hx => (hquantified x).mpr hx ▸ hdrawn⟩
    simp [showScheme, Ty.RowsSorted, Ty.rows, Ty.rowsAll, Row.IsSorted, Sorted.IsSorted, Row.pure]
  have hglobal {name : String} {σ : Scheme} (h : withShow.globals.get? name = some σ) :
      σ = showScheme :=
    mem_singleton.mp (Dict.mem_values_of_get? h)
  have henv : withShow.Usable afterFirst.ready :=
    ⟨fun _ h => (not_mem_nil h).elim, fun h => hglobal h ▸ husable,
      fun h x hx => hx.2 (hglobal h ▸ (hquantified x).mp (hvars x (hglobal h ▸ hx.1)))⟩
  refine (InferState.wellFormed_start (Fresh.pooled_ready hpooled.typeVar.spaced).distinct henv rfl
    ⟨fun h => ?_, fun h => ?_, fun h => ?_⟩).toValid <;> cases h

/-- The names that failed, and the traits that each of the others requires. -/
private def traitsOf (o : Outcome) : List String × List (String × List String) :=
  (o.failures.map (·.1), o.schemes.map fun entry => (entry.1, entry.2.1.givens.map (·.traitName)))

private theorem failures_of_traitsOf {o : Outcome} {required : List (String × List String)}
    (h : traitsOf o = ([], required)) : o.failures = [] :=
  map_eq_nil_iff.mp (Prod.mk.inj h).1

/-- A function of one parameter. -/
private def unary (name param : String) (body : Expr) : Definition where
  name := name
  params := [.var .synthetic param]
  body

/-- A call of a function with one argument. -/
private def useOf (f : String) (e : Expr) : Expr :=
  .call .synthetic (.var .synthetic f) [e]

/-- `f x = let _ = show x in g x` and `g y = f y`. -/
private def passing : List Definition := [
  unary "f" "x" (.letIn .synthetic (.wildcard .synthetic) none (useOf "show" (.var .synthetic "x"))
    (useOf "g" (.var .synthetic "x"))),
  unary "g" "y" (useOf "f" (.var .synthetic "y"))]

set_option maxRecDepth 100000 in
private theorem traitsOf_passing :
    traitsOf (infer {} withShow afterFirst passing).1 =
      ([], [("f", ["Show"]), ("g", ["Show"])]) := by cbv

/-- `g` does not show anything itself and has the requirement of `f`. -/
theorem requirements_shared_passing :
    (InferState.start afterFirst.ready withShow).Valid {} ∧
      (infer {} withShow afterFirst passing).1.failures = [] ∧
      (infer {} withShow afterFirst passing).1.schemes.map
          (fun entry => (entry.1, entry.2.1.givens.map (·.traitName))) =
        [("f", ["Show"]), ("g", ["Show"])] ∧
      ∃ ms st, Infers {} withShow afterFirst passing ms st ∧
        Forall₂ (fun m entry => entry.1 = m.definition.name.node ∧
            (∀ ob ∈ m.obligations, ob.IsResidual st.subst → m.type.Expresses ob st.subst) ∧
            ∃ tails, (∀ e ∈ tails, .effect e ∈ (st.subst.apply m.type).occurrences) ∧
              entry.2.1.type = (Generalize.closing tails).apply (st.subst.apply m.type) ∧
              ∀ g, g ∈ entry.2.1.givens ↔ ∃ m' ∈ ms, ∃ ob ∈ m'.obligations, ob.IsResidual st.subst ∧
                m.type.Expresses ob st.subst ∧
                g = ⟨ob.traitName, (Generalize.closing tails).apply (st.subst.apply ob.type)⟩)
          ms (infer {} withShow afterFirst passing).1.schemes :=
  ⟨valid_withShow, failures_of_traitsOf traitsOf_passing, (Prod.mk.inj traitsOf_passing).2,
    requirements_shared valid_withShow (failures_of_traitsOf traitsOf_passing)⟩

/-- `f h = let _ = fn w -> (show w, h w) in g 0` and `g n = f (fn z -> 0)`. -/
private def concealing : List Definition := [
  unary "f" "h" (.letIn .synthetic (.wildcard .synthetic) none
    (.lambda .synthetic [.var .synthetic "w"] (.tuple .synthetic
      [useOf "show" (.var .synthetic "w"), useOf "h" (.var .synthetic "w")]))
    (useOf "g" (.lit .synthetic (.int 0)))),
  unary "g" "n" (useOf "f"
    (.lambda .synthetic [.var .synthetic "z"] (.lit .synthetic (.int 0))))]

set_option maxRecDepth 100000 in
private theorem traitsOf_concealing :
    traitsOf (infer {} withShow afterFirst concealing).1 =
      ([], [("f", ["Show"]), ("g", [])]) := by cbv

/-- `g` calls `f` with a function whose parameter nothing determines. The body of `f` leaves a
requirement on the type of that parameter, which the scheme of `g` does not have, and there is no
error. -/
theorem requirement_left_out :
    (infer {} withShow afterFirst concealing).1.failures = [] ∧
      ∃ ms st, Infers {} withShow afterFirst concealing ms st ∧
        ∃ m ∈ ms, ∃ ob ∈ m.obligations, ob.IsResidual st.subst ∧
          ∃ entry ∈ (infer {} withShow afterFirst concealing).1.schemes, entry.1 = "g" ∧
            ∀ g ∈ entry.2.1.givens, g.traitName ≠ ob.traitName := by
  have hnone := failures_of_traitsOf traitsOf_concealing
  obtain ⟨ms, st, hinfers, hshares⟩ := shares_infer valid_withShow hnone
  refine ⟨hnone, ms, st, hinfers, ?_⟩
  obtain ⟨first, _, heq, hfirst, hrest⟩ := map_eq_cons_iff.mp (Prod.mk.inj traitsOf_concealing).2
  obtain ⟨second, _, rfl, hsecond, hend⟩ := map_eq_cons_iff.mp hrest
  rw [heq] at hshares ⊢
  obtain ⟨given, _, hgiven, -, -⟩ := map_eq_cons_iff.mp (Prod.mk.inj hfirst).2
  cases hshares with
  | cons hshares _ =>
    -- the requirement of `f` comes from one of the two bodies
    obtain ⟨tails, -, -, hgivens⟩ := hshares.2.givens
    obtain ⟨m, hm, ob, hob, hresidual, -⟩ := (hgivens given).mp (hgiven ▸ mem_cons_self)
    refine ⟨m, hm, ob, hob, hresidual, second, by simp, (Prod.mk.inj hsecond).1, ?_⟩
    rw [map_eq_nil_iff.mp (Prod.mk.inj hsecond).2]
    exact forall_mem_nil _

end Component

end RowTyping
