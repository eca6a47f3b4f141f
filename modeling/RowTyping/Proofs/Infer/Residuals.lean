import RowTyping.Proofs.Composition
import RowTyping.Proofs.Infer.Generalize

/-!
# Obligations as stored and as resolved

Generalisation resolves the obligations before it looks for ambiguous ones and before it makes
requirements of them, so there an obligation and its resolved form are the same. But it chooses the
tails to close by counting their occurrences in the obligations as they are stored. A tail that an
obligation has only through a bound variable is closed, and stays open if the obligation has been
resolved before. The same scheme comes out exactly if there is no such tail
(`generalize_resolved_iff`).
-/

namespace RowTyping

open List

namespace Generalize

variable {t : Ty} {residual : List Obligation} {s : Subst} {fixed : FixedVars} {e : EffectVar}

/-- Every tail of the type that might be closed and occurs in a resolved obligation occurs in an
obligation as stored. -/
def StoresTails (t : Ty) (residual : List Obligation) (s : Subst) (fixed : FixedVars) : Prop :=
  ∀ e ∈ (s.apply t).resultRows.filterMap (·.tail), (s.apply t).effectCount e = 1 →
    e ∉ fixed.effects → ∀ ob ∈ residual, .effect e ∈ (s.apply ob.type).occurrences →
      ∃ stored ∈ residual, .effect e ∈ stored.type.occurrences

instance : Decidable (StoresTails t residual s fixed) :=
  inferInstanceAs (Decidable (∀ e ∈ (s.apply t).resultRows.filterMap (·.tail),
    (s.apply t).effectCount e = 1 → e ∉ fixed.effects →
      ∀ ob ∈ residual, .effect e ∈ (s.apply ob.type).occurrences →
        ∃ stored ∈ residual, .effect e ∈ stored.type.occurrences))

/-- The tails that are closed occur in no obligation. -/
theorem mem_singletonTails_iff :
    e ∈ singletonTails t residual fixed ↔
      e ∈ t.resultRows.filterMap (·.tail) ∧ t.effectCount e = 1 ∧ e ∉ fixed.effects ∧
        ∀ ob ∈ residual, .effect e ∉ ob.type.occurrences := by
  rw [singletonTails, mem_filter]
  refine and_congr_right fun hmem => ?_
  obtain ⟨r, hr, he⟩ := mem_filterMap.mp hmem
  have hpos : 0 < t.effectCount e := count_pos_iff.mpr (mem_occurrences_of_mem_resultRows hr he)
  have hcount : effectCount t residual e = 1 ↔
      t.effectCount e = 1 ∧ (residual.flatMap (·.type.occurrences)).count (.effect e) = 0 := by
    rw [effectCount]
    omega
  rw [Bool.and_eq_true, decide_eq_true_eq, hcount, count_eq_zero]
  simp only [mem_flatMap, not_exists, not_and, Bool.not_eq_true', contains_eq_mem,
    decide_eq_false_iff_not]
  tauto

/-- A tail of a resolved type that occurs in an obligation occurs in the resolved obligation. -/
theorem mem_occurrences_of_stored (hs : s.Acyclic)
    (he : e ∈ (s.apply t).resultRows.filterMap (·.tail))
    {ob : Obligation} (hob : .effect e ∈ ob.type.occurrences) :
    .effect e ∈ (s.apply ob.type).occurrences := by
  obtain ⟨r, hr, htail⟩ := mem_filterMap.mp he
  obtain ⟨y, -, hy⟩ := Subst.mem_occurrences_apply.mp (mem_occurrences_of_mem_resultRows hr htail)
  have hself : s.valuation.image (.effect e) = [.effect e] :=
    Subst.image_of_not_binds (hs.mem_image hy).2
  exact Subst.mem_occurrences_apply.mpr ⟨.effect e, hob, hself ▸ (.head _)⟩

/-- Resolved obligations keep exactly those tails open that occur in them. -/
theorem mem_singletonTails_resolved :
    e ∈ singletonTails (s.apply t) (residual.map (·.apply s)) fixed ↔
      e ∈ (s.apply t).resultRows.filterMap (·.tail) ∧ (s.apply t).effectCount e = 1 ∧
      e ∉ fixed.effects ∧
        ∀ ob ∈ residual, .effect e ∉ (s.apply ob.type).occurrences := by
  rw [mem_singletonTails_iff, forall_mem_map]
  rfl

theorem singletonTails_resolved (hs : s.Acyclic) (h : StoresTails t residual s fixed) :
    singletonTails (s.apply t) (residual.map (·.apply s)) fixed =
      singletonTails (s.apply t) residual fixed := by
  refine filter_congr fun e he => Bool.eq_iff_iff.mpr ?_
  suffices e ∈ singletonTails (s.apply t) (residual.map (·.apply s)) fixed ↔
      e ∈ singletonTails (s.apply t) residual fixed by
    simpa only [singletonTails, mem_filter, he, true_and] using this
  rw [mem_singletonTails_resolved, mem_singletonTails_iff]
  refine and_congr_right fun _ => and_congr_right fun hcount => and_congr_right fun hfixed => ?_
  constructor
  · intro hresolved ob hob hstored
    exact hresolved ob hob (mem_occurrences_of_stored hs he hstored)
  · intro hstored ob hob hresolved
    obtain ⟨ob', hob', hmem⟩ := h e he hcount hfixed ob hob hresolved
    exact hstored ob' hob' hmem

/-- If the same type comes out, then no tail is closed for stored obligations only. -/
theorem storesTails_of_closing_eq
    (h : (closing (singletonTails (s.apply t) (residual.map (·.apply s)) fixed)).apply (s.apply t) =
      (closing (singletonTails (s.apply t) residual fixed)).apply (s.apply t)) :
    StoresTails t residual s fixed := by
  intro e he hcount hfixed ob hob hresolved
  by_contra hstored
  have hclosed : e ∈ singletonTails (s.apply t) residual fixed :=
    mem_singletonTails_iff.mpr ⟨he, hcount, hfixed, fun ob' hob' hmem => hstored ⟨ob', hob', hmem⟩⟩
  have hopen : e ∉ singletonTails (s.apply t) (residual.map (·.apply s)) fixed :=
    fun he' => (mem_singletonTails_resolved.mp he').2.2.2 ob hob hresolved
  have hmem := mem_occurrences_closing_iff.mpr
    ⟨mem_occurrences_of_mem_singletonTails hclosed,
      fun e' he' heq => hopen (by cases heq; exact he')⟩
  rw [h] at hmem
  exact (mem_occurrences_closing_iff.mp hmem).2 e hclosed rfl

end Generalize

section Resolved

variable {t : Ty} {residual : List Obligation} {s : Subst} {fixed : FixedVars} {hints : VarNames}

open Generalize

/-- Generalisation succeeds exactly if the type and the fixed variables determine all
obligations. -/
theorem exists_generalize_iff :
    (∃ r, generalize t residual s fixed hints = .ok r) ↔
      ∀ ob ∈ residual, ∀ v, .type v ∈ (s.apply ob.type).occurrences →
        .type v ∈ (s.apply t).occurrences ∨ v ∈ fixed.types := by
  constructor
  · rintro ⟨⟨σ, deferred⟩, h⟩
    obtain ⟨-, -, -, -, hdetermined⟩ := generalize_spec h
    exact hdetermined
  · intro hdetermined
    simp only [generalize]
    split
    · rename_i ob hfind
      obtain ⟨ob, hob, rfl⟩ := mem_map.mp (mem_of_find?_eq_some hfind)
      have hambiguous := find?_some hfind
      rw [isAmbiguous_eq_false_iff.mpr (hdetermined ob hob)] at hambiguous
      cases hambiguous
    · exact ⟨_, rfl⟩

/-- Where obligations store their tails, resolving them first makes no difference. -/
theorem generalize_resolved (hs : s.Acyclic) (h : StoresTails t residual s fixed) :
    generalize t (residual.map (·.apply s)) s fixed hints =
      generalize t residual s fixed hints := by
  have hobs (closed : Subst) :
    (residual.map (·.apply s)).map (fun ob => (ob.apply s).apply closed) =
      residual.map fun ob => (ob.apply s).apply closed := by
    simp only [map_map, Function.comp_def, Obligation.apply, hs.apply_apply]
  simp only [generalize, singletonTails_resolved hs h, hobs]

/-- Resolving obligations before generalisation never decides whether it succeeds. It changes
nothing if the obligations store the tails they have, and only then the same scheme comes out. -/
theorem generalize_resolved_iff (hs : s.Acyclic) :
    (StoresTails t residual s fixed →
      generalize t (residual.map (·.apply s)) s fixed hints = generalize t residual s fixed hints) ∧
    ((∃ r, generalize t (residual.map (·.apply s)) s fixed hints = .ok r) ↔
      ∃ r, generalize t residual s fixed hints = .ok r) ∧
    ∀ σ deferred σ' deferred', generalize t residual s fixed hints = .ok (σ, deferred) →
      generalize t (residual.map (·.apply s)) s fixed hints = .ok (σ', deferred') →
      (σ' = σ ↔ StoresTails t residual s fixed) := by
  refine ⟨generalize_resolved hs, ?_, fun σ deferred σ' deferred' h h' => ⟨fun heq => ?_,
    fun hstores => ?_⟩⟩
  · simp only [exists_generalize_iff, forall_mem_map, Obligation.apply, hs.apply_apply]
  · refine storesTails_of_closing_eq ?_
    exact (type_of_generalize h').symm.trans
      ((congrArg Scheme.type heq).trans (type_of_generalize h))
  · rw [generalize_resolved hs hstores, h] at h'
    cases h'
    rfl

end Resolved

/-- The variable `a` stands for a function with an open row. -/
private def showing : Subst := Subst.empty.bindType ⟨0⟩ (.fn [.var ⟨1⟩] .int (.ofVar ⟨0⟩))

private theorem acyclic_showing : showing.Acyclic :=
  Subst.Acyclic.bindType Subst.acyclic_empty (by decide) (by decide)

/-- A function that may have any effects. -/
private def performing : Ty := .fn [.var ⟨1⟩] (.var ⟨1⟩) (.ofVar ⟨0⟩)

private def requires (name : String) (t : Ty) : Obligation := ⟨name, t, ⟨.synthetic, .callEffects⟩⟩

/-- The tail stays open if one obligation has it as stored and another one through the variable. -/
theorem generalize_resolved_iff_stored :
    let residual := [requires "Show" (.var ⟨0⟩), requires "Eq" performing]
    ∃ σ deferred, generalize performing residual showing {} {} = .ok (σ, deferred) ∧
      σ.effectVars = [⟨0⟩] ∧
      generalize performing (residual.map (·.apply showing)) showing {} {} = .ok (σ, deferred) :=
  ⟨_, _, rfl, by decide, (generalize_resolved_iff acyclic_showing).1 (by decide)⟩

/-- The tail is closed if an obligation has it through the variable only, and stays open if that
obligation has been resolved. -/
theorem tail_closed_behind_variable :
    showing.Acyclic ∧
      (generalize performing [requires "Show" (.var ⟨0⟩)] showing {} {}).toOption.map
        (·.1.effectVars) = some [] ∧
      (generalize performing [(requires "Show" (.var ⟨0⟩)).apply showing] showing {}
        {}).toOption.map (·.1.effectVars) = some [⟨0⟩] :=
  ⟨acyclic_showing, by decide, by decide⟩

end RowTyping
