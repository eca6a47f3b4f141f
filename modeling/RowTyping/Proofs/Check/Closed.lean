import RowTyping.Proofs.Check.Outcomes
import RowTyping.Proofs.Naming

/-!
# Closed signatures

Which variables of a signature are quantified. Generalisation quantifies over the variables of the
type and refuses requirements on other type variables, but it never looks at the effect variables of
requirements: these are quantified only if they occur in the type too (`generalize_spec`). Declared
schemes quantify over all variables they mention, so a report lists every variable of a signature
among its quantifiers, apart from such effect variables (`Signature.ListsAll`).
-/

namespace RowTyping

/-- A declared scheme binds all its variables, since its requirements are on type variables of its
scope. -/
theorem Scheme.Written.bindsAll {reg : Registry} {P : Region} {w : TypeExpr} {scope : TypeScope}
    {givens : List Given} {σ : Scheme} (h : Scheme.Written reg P w scope givens σ) :
    σ.BindsAll := by
  have hover := h.reads.inScope
  rw [h.eq]
  refine ⟨fun x hx => TypeScope.mem_quantified_scheme.mpr (hover x hx), fun g hg x hx => ?_⟩
  obtain ⟨v, hv, hscope⟩ := h.onVars g (mem_groupByTrait.mp hg)
  rw [hv] at hx
  obtain rfl := List.mem_singleton.mp hx
  exact iff_of_true (TypeScope.mem_quantified_scheme.mpr hscope) fun e he => by cases he

/-- The signature lists its variables among its quantifiers, apart from effect variables that occur
only in requirements. -/
structure Signature.ListsAll (sig : Signature) : Prop where
  type : ∀ x ∈ sig.type.occurrences, x ∈ sig.quantifiers
  givens : ∀ g ∈ sig.givens, ∀ x ∈ g.type.occurrences,
    x ∈ sig.quantifiers ↔ ∀ e, x = .effect e → x ∈ sig.type.occurrences

theorem Scheme.BindsAll.listsAll {σ : Scheme} (h : σ.BindsAll) (name : String) (span : Span) :
    (Signature.ofScheme name σ span).ListsAll :=
  ⟨fun x hx => mem_quantifiers.mpr (h.type x hx),
    fun g hg x hx => mem_quantifiers.trans (h.givens g hg x hx)⟩

/-- Every signature of a report lists its variables. -/
theorem Checker.listsAll_of_mem_check (m : Module) (trace : Bool) :
    ∀ sig ∈ (m.check trace).signatures, sig.ListsAll := by
  intro sig hsig
  obtain ⟨name, σ, span, rfl, ⟨-, _, _, _, _, hσ⟩ | ⟨r, -, hentry⟩⟩ := m.mem_signatures_check hsig
  · exact hσ.bindsAll.listsAll _ _
  · obtain ⟨_, _, _, _, _, hgen⟩ := Component.of_mem_infer hentry
    exact (Scheme.bindsAll_of_generalize hgen).listsAll _ _

/-! ## Main results -/

/-- What generalisation quantifies over is not fixed, and every variable of the type and every type
variable of a requirement is quantified or fixed. The effect variables of requirements are so
exactly if the type or the fixed variables determine them. In reports nothing is fixed: every
variable of a signature is listed, apart from effect variables that occur only in requirements. -/
theorem generalized_schemes_closed (t : Ty) (residual : List Obligation) (s : Subst)
    (fixed : FixedVars) (hints : VarNames) (m : Module) (trace : Bool) :
    (∀ σ deferred, generalize t residual s fixed hints = .ok (σ, deferred) →
      (∀ x ∈ σ.quantified, ¬ fixed.Has x) ∧
      (∀ x ∈ σ.type.occurrences, x ∈ σ.quantified ∨ fixed.Has x) ∧
      (∀ g ∈ σ.givens, ∀ v, .type v ∈ g.type.occurrences →
        .type v ∈ σ.quantified ∨ fixed.Has (.type v)) ∧
      ((∀ g ∈ σ.givens, ∀ x ∈ g.type.occurrences, x ∈ σ.quantified ∨ fixed.Has x) ↔
        EffectsDetermined t residual s fixed)) ∧
    ∀ sig ∈ (m.check trace).signatures,
      (∀ x ∈ sig.type.occurrences, x ∈ sig.quantifiers) ∧
      ∀ g ∈ sig.givens, ∀ x ∈ g.type.occurrences,
        x ∈ sig.quantifiers ↔ ∀ e, x = .effect e → x ∈ sig.type.occurrences := by
  refine ⟨fun σ deferred h => ⟨fun x hx => ?_, fun x hx => ?_, fun g hg v hv => ?_, ?_⟩,
    fun sig hsig => ?_⟩
  · exact ((mem_quantified_of_generalize h x).mp hx).2
  · rw [mem_quantified_of_generalize h x]
    tauto
  · exact mem_quantified_of_generalize_type h hg hv
  · exact binds_givens_iff_effectsDetermined h
  · obtain ⟨htype, hgivens⟩ := Checker.listsAll_of_mem_check m trace sig hsig
    exact ⟨htype, hgivens⟩

/-- The type `f (Int -> Int can e)`. -/
private def appliedFunction (f : TypeVar) (e : EffectVar) : Ty :=
  .app (.var f) [.fn [.prim .int] (.prim .int) (.ofVar e)]

private def showObligation (t : Ty) : Obligation where
  traitName := "Show"
  type := t
  origin := ⟨.synthetic, .callEffects⟩

/-- The row of the required type occurs in `f (Int -> Int can e) -> String` too, so it is
quantified. -/
theorem generalized_schemes_closed_shared_effect :
    ∃ σ, generalize (.fn [appliedFunction ⟨0⟩ ⟨5⟩] (.prim .string) .pure)
        [showObligation (appliedFunction ⟨0⟩ ⟨5⟩)] .empty {} {} = .ok (σ, []) ∧
      σ.givens = [⟨"Show", appliedFunction ⟨0⟩ ⟨5⟩⟩] ∧
      ∀ g ∈ σ.givens, ∀ x ∈ g.type.occurrences, x ∈ σ.quantified ∨ FixedVars.Has {} x := by
  let σ : Scheme :=
    { typeVars := [⟨0⟩], effectVars := [⟨5⟩], givens := [⟨"Show", appliedFunction ⟨0⟩ ⟨5⟩⟩]
      type := .fn [appliedFunction ⟨0⟩ ⟨5⟩] (.prim .string) .pure }
  have hrun : generalize (.fn [appliedFunction ⟨0⟩ ⟨5⟩] (.prim .string) .pure)
      [showObligation (appliedFunction ⟨0⟩ ⟨5⟩)] .empty {} {} = .ok (σ, []) := by cbv
  have hclosed := (generalized_schemes_closed _ _ _ _ _ { declarations := [] } false).1 _ _ hrun
  refine ⟨σ, hrun, rfl, hclosed.2.2.2.mpr fun ob hob _ e he => ?_⟩
  rw [List.mem_singleton.mp hob] at he
  exact Or.inl (Ty.mem_occurrences_fn.mpr (Or.inl ⟨_, List.mem_cons_self, he⟩))

/-- The type `f Int -> String` does not mention the row of the required type, which stays a free
variable of the scheme. -/
theorem generalize_leaves_effect_free :
    ∃ σ, generalize (.fn [.app (.var ⟨0⟩) [.prim .int]] (.prim .string) .pure)
        [showObligation (appliedFunction ⟨0⟩ ⟨5⟩)] .empty {} {} = .ok (σ, []) ∧
      ∃ g ∈ σ.givens, ∃ x ∈ g.type.occurrences, ¬ (x ∈ σ.quantified ∨ FixedVars.Has {} x) := by
  let σ : Scheme :=
    { typeVars := [⟨0⟩], givens := [⟨"Show", appliedFunction ⟨0⟩ ⟨5⟩⟩]
      type := .fn [.app (.var ⟨0⟩) [.prim .int]] (.prim .string) .pure }
  have hfree : .effect ⟨5⟩ ∉ σ.quantified := by decide
  refine ⟨σ, by cbv, _, List.mem_cons_self, .effect ⟨5⟩, by decide, ?_⟩
  exact fun h => h.elim hfree (FixedVars.not_has_empty _)

end RowTyping
