import RowTyping.Proofs.Computation
import RowTyping.Proofs.Lockstep.Errors
import RowTyping.Proofs.Unify.Soundness

/-!
# Unification in lockstep

Unification compares variables only for equality and draws its tails in turn. So it does the same
with matching equations, if the supplies hand out matching variables (`Unify.solve_lockstep`).

Two substitutions correspond if matching variables are bound alike (`Matching.Substs`). How far
bindings are followed depends on their number, so the two resolve alike only if they have equally
many bindings (`Subst.SameSize`) or have no cycles. Both come up: equally many for two inferences
side by side, no cycles for an inference that goes on and a fresh start.
-/

namespace RowTyping

open List

/-! ## The number of entries of a dictionary -/

namespace Dict

variable {κ α : Type} [Ord κ]

/-- The keys increase. -/
def Ordered (d : Dict κ α) : Prop :=
  d.entries.Pairwise fun entry later => compare entry.1 later.1 = .lt

theorem ordered_empty : (empty : Dict κ α).Ordered := .nil

theorem mem_place {k : κ} {a : α} {entries : List (κ × α)} {entry : κ × α}
    (h : entry ∈ place k a entries) : entry = (k, a) ∨ entry ∈ entries := by
  induction entries with
  | nil => exact .inl (mem_singleton.mp h)
  | cons first rest ih =>
    simp only [place] at h
    split at h
    · exact mem_cons.mp h
    · exact (mem_cons.mp h).imp_right (mem_cons_of_mem _)
    · rcases mem_cons.mp h with rfl | h
      · exact .inr (.head _)
      · exact (ih h).imp_right (mem_cons_of_mem _)

variable [Std.LawfulEqOrd κ] [Std.TransOrd κ]

theorem Ordered.insert {d : Dict κ α} (h : d.Ordered) (k : κ) (a : α) : (d.insert k a).Ordered := by
  obtain ⟨entries⟩ := d
  change (place k a entries).Pairwise _
  induction entries with
  | nil => exact pairwise_singleton _ _
  | cons first rest ih =>
    obtain ⟨hfirst, hrest⟩ := pairwise_cons.mp h
    simp only [place]
    split
    · rename_i hlt
      refine pairwise_cons.mpr ⟨forall_mem_cons.mpr ⟨hlt, fun later hlater => ?_⟩, h⟩
      exact Std.TransCmp.lt_trans hlt (hfirst later hlater)
    · rename_i heq
      obtain rfl := Std.LawfulEqOrd.eq_of_compare heq
      exact pairwise_cons.mpr ⟨hfirst, hrest⟩
    · rename_i hgt
      refine pairwise_cons.mpr ⟨fun later hlater => ?_, ih hrest⟩
      rcases mem_place hlater with rfl | hlater
      · exact Std.OrientedCmp.gt_iff_lt.mp hgt
      · exact hfirst later hlater

/-- Storing a value adds an entry exactly if the key is new. -/
theorem Ordered.size_insert [DecidableEq κ] {d : Dict κ α} (h : d.Ordered) (k : κ) (a : α) :
    (d.insert k a).size = if (d.get? k).isSome then d.size else d.size + 1 := by
  obtain ⟨entries⟩ := d
  change (place k a entries).length =
    if (lookup k entries).isSome then entries.length else entries.length + 1
  induction entries with
  | nil => rfl
  | cons first rest ih =>
    obtain ⟨hfirst, hrest⟩ := pairwise_cons.mp h
    have hlookup {k : κ} (hk : ∀ entry ∈ rest, k ≠ entry.1) : lookup k rest = none := by
      clear ih hfirst hrest h
      induction rest with
      | nil => rfl
      | cons entry rest ih =>
        rw [lookup, if_neg (hk entry (.head _))]
        exact ih fun entry h => hk entry (.tail _ h)
    simp only [place, lookup]
    split
    · rename_i hlt
      have hne : k ≠ first.1 := by
        rintro rfl
        simp at hlt
      have hnone := hlookup (k := k) fun entry hentry heq => by
        have := Std.TransCmp.lt_trans hlt (hfirst entry hentry)
        simp [heq] at this
      simp [hne, hnone]
    · rename_i heq
      simp [Std.LawfulEqOrd.eq_of_compare heq]
    · rename_i hgt
      have hne : k ≠ first.1 := by
        rintro rfl
        simp at hgt
      simp only [length_cons, if_neg hne, ih hrest]
      split <;> rfl

end Dict

/-- Both substitutions have equally many bindings, of types and of rows. -/
structure Subst.SameSize (s s' : Subst) : Prop where
  types : s.types.size = s'.types.size
  effects : s.effects.size = s'.effects.size
  ordered : s.types.Ordered ∧ s.effects.Ordered
  ordered' : s'.types.Ordered ∧ s'.effects.Ordered

theorem Subst.sameSize_empty : empty.SameSize empty :=
  ⟨rfl, rfl, ⟨Dict.ordered_empty, Dict.ordered_empty⟩, ⟨Dict.ordered_empty, Dict.ordered_empty⟩⟩

namespace Matching

variable {ρ : Matching} {s s' : Subst}

/-! ## Supplies and substitutions -/

/-- The supplies hand out matching variables in turn. -/
structure Supplies (ρ : Matching) (f f' : Fresh) : Prop where
  types : ∀ n, ρ.types ⟨f.upcomingTypes n⟩ ⟨f'.upcomingTypes n⟩
  effects : ∀ n, ρ.effects ⟨f.upcomingEffects n⟩ ⟨f'.upcomingEffects n⟩

theorem Supplies.typeVar {f f' : Fresh} (h : ρ.Supplies f f') :
    ρ.types f.typeVar.1 f'.typeVar.1 ∧ ρ.Supplies f.typeVar.2 f'.typeVar.2 :=
  ⟨h.types 0, fun n => h.types (n + 1), h.effects⟩

theorem Supplies.effectVar {f f' : Fresh} (h : ρ.Supplies f f') :
    ρ.effects f.effectVar.1 f'.effectVar.1 ∧ ρ.Supplies f.effectVar.2 f'.effectVar.2 :=
  ⟨h.effects 0, h.types, fun n => h.effects (n + 1)⟩

/-- Matching variables are bound to matching types and rows, or not at all. -/
structure Substs (ρ : Matching) (s s' : Subst) : Prop where
  types : ∀ {v v'}, ρ.types v v' → Option.Rel ρ.Types (s.types.get? v) (s'.types.get? v')
  effects : ∀ {e e'}, ρ.effects e e' → Option.Rel ρ.Rows (s.effects.get? e) (s'.effects.get? e')

theorem substs_empty : ρ.Substs .empty .empty :=
  ⟨fun _ => .none, fun _ => .none⟩

section Bind

variable {s s' : Subst} {v v' : TypeVar} {e e' : EffectVar}

theorem Substs.bindType (h : ρ.Substs s s') {t t' : Ty} (hv : ρ.types v v') (ht : ρ.Types t t') :
    ρ.Substs (s.bindType v t) (s'.bindType v' t') where
  types {w w'} hw := by
    have heq := Relator.rel_eq ρ.biUnique_types hw hv
    by_cases hwv : w = v
    · simpa [Subst.bindType, hwv, heq.mp hwv] using ht
    · simpa [Subst.bindType, hwv, mt heq.mpr hwv] using h.types hw
  effects := h.effects

theorem Substs.bindEffect (h : ρ.Substs s s') {r r' : Row} (he : ρ.effects e e')
    (hr : ρ.Rows r r') :
    ρ.Substs (s.bindEffect e r) (s'.bindEffect e' r') where
  types := h.types
  effects {f f'} hf := by
    have heq := Relator.rel_eq ρ.biUnique_effects hf he
    by_cases hfe : f = e
    · simpa [Subst.bindEffect, hfe, heq.mp hfe] using hr
    · simpa [Subst.bindEffect, hfe, mt heq.mpr hfe] using h.effects hf

theorem Substs.sameSize_bindType (h : ρ.Substs s s') (hsize : s.SameSize s') (hv : ρ.types v v')
    (t t' : Ty) :
    (s.bindType v t).SameSize (s'.bindType v' t') where
  types := by
    have hbound := isSome_eq_of_rel (h.types hv)
    simp only [Subst.bindType, hsize.ordered.1.size_insert, hsize.ordered'.1.size_insert, hbound,
      hsize.types]
  effects := hsize.effects
  ordered := ⟨hsize.ordered.1.insert v t, hsize.ordered.2⟩
  ordered' := ⟨hsize.ordered'.1.insert v' t', hsize.ordered'.2⟩

theorem Substs.sameSize_bindEffect (h : ρ.Substs s s') (hsize : s.SameSize s') (he : ρ.effects e e')
    (r r' : Row) :
    (s.bindEffect e r).SameSize (s'.bindEffect e' r') where
  types := hsize.types
  effects := by
    have hbound := isSome_eq_of_rel (h.effects he)
    simp only [Subst.bindEffect, hsize.ordered.2.size_insert, hsize.ordered'.2.size_insert, hbound,
      hsize.effects]
  ordered := ⟨hsize.ordered.1, hsize.ordered.2.insert e r⟩
  ordered' := ⟨hsize.ordered'.1, hsize.ordered'.2.insert e' r'⟩

/-! ## Following bindings -/

theorem Substs.resolveEffect (h : ρ.Substs s s') (n : Nat) (he : ρ.effects e e') :
    ρ.Tails e e' (s.resolveEffect n e) (s'.resolveEffect n e') := by
  induction n generalizing e e' with
  | zero => exact .kept he
  | succ n ih =>
    have hrows : ρ.Valuations ρ ⟨.var, s.resolveEffect n⟩ ⟨.var, s'.resolveEffect n⟩ :=
      ⟨.var, ih⟩
    have hbound := h.effects he
    simp only [Subst.resolveEffect]
    generalize s.effects.get? e = r at hbound ⊢
    generalize s'.effects.get? e' = r' at hbound ⊢
    cases hbound with
    | none => exact .kept he
    | some hr => exact .replaced (hr.under hrows)

theorem Substs.resolveType (h : ρ.Substs s s') (m n : Nat) (hv : ρ.types v v')
    (hm : s.effects.size = m)
    (hm' : s'.effects.size = m) : ρ.Types (s.resolveType n v) (s'.resolveType n v') := by
  induction n generalizing v v' with
  | zero => exact .var hv
  | succ n ih =>
    have hbound := h.types hv
    simp only [Subst.resolveType, hm, hm']
    generalize s.types.get? v = t at hbound ⊢
    generalize s'.types.get? v' = t' at hbound ⊢
    have hvaluations : ρ.Valuations ρ ⟨s.resolveType n, s.resolveEffect m⟩
        ⟨s'.resolveType n, s'.resolveEffect m⟩ := ⟨ih, h.resolveEffect m⟩
    cases hbound with
    | none => exact .var hv
    | some ht => exact ht.under hvaluations

/-- Substitutions with equally many bindings resolve matching variables alike. -/
theorem Substs.valuations_of_sameSize (h : ρ.Substs s s') (hsize : s.SameSize s') :
    ρ.Valuations ρ s.valuation s'.valuation where
  types hv := by
    simp only [Subst.valuation, hsize.types]
    exact h.resolveType _ _ hv hsize.effects rfl
  effects he := by
    simp only [Subst.valuation, hsize.effects]
    exact h.resolveEffect _ he

/-- The matching restricted to variables with a property on the left. -/
def restrict (ρ : Matching) (Q : Var → Prop) : Matching where
  types v v' := Q (.type v) ∧ ρ.types v v'
  effects e e' := Q (.effect e) ∧ ρ.effects e e'
  biUnique_types := ⟨fun _ _ _ h h' => ρ.biUnique_types.1 h.2 h'.2,
    fun _ _ _ h h' => ρ.biUnique_types.2 h.2 h'.2⟩
  biUnique_effects := ⟨fun _ _ _ h h' => ρ.biUnique_effects.1 h.2 h'.2,
    fun _ _ _ h h' => ρ.biUnique_effects.2 h.2 h'.2⟩

theorem Types.restrict {t t' : Ty} (h : ρ.Types t t') :
    (ρ.restrict (· ∈ t.occurrences)).Types t t' :=
  h.mono fun x hx {x'} hxx' => by
    cases hxx' with
    | type hv => exact .type ⟨hx, hv⟩
    | effect he => exact .effect ⟨hx, he⟩

/-- What matching variables stand for after all bindings. -/
def Images (ρ : Matching) (V V' : Valuation) (x : Var) : Prop :=
  match x with
  | .type v => ∀ v', ρ.types v v' → ρ.Types (V.types v) (V'.types v')
  | .effect e => ∀ e', ρ.effects e e' → ρ.Tails e e' (V.effects e) (V'.effects e')

/-- Substitutions without cycles resolve matching variables alike. -/
theorem Substs.valuations_of_acyclic (h : ρ.Substs s s') (hs : s.Acyclic) (hs' : s'.Acyclic) :
    ρ.Valuations ρ s.valuation s'.valuation := by
  have himages : ∀ x, ρ.Images s.valuation s'.valuation x := by
    refine hs.induction fun x ih => ?_
    cases x with
    | type v =>
      intro v' hv
      have hbound := h.types hv
      generalize ht : s.types.get? v = t at hbound
      generalize ht' : s'.types.get? v' = t' at hbound
      cases hbound with
      | none =>
        rw [Subst.types_of_unbound ht, Subst.types_of_unbound ht']
        exact .var hv
      | some hty =>
        rw [hs.types_of_bound ht, hs'.types_of_bound ht']
        refine hty.restrict.under ⟨fun hw => ?_, fun he => ?_⟩
        · exact ih _ (Subst.leadsTo_of_types ht hw.1) _ hw.2
        · exact ih _ (Subst.leadsTo_of_types ht he.1) _ he.2
    | effect e =>
      intro e' he
      have hbound := h.effects he
      generalize hr : s.effects.get? e = r at hbound
      generalize hr' : s'.effects.get? e' = r' at hbound
      cases hbound with
      | none =>
        rw [Subst.effects_of_unbound hr, Subst.effects_of_unbound hr']
        exact .kept he
      | some hrow =>
        rw [hs.effects_of_bound hr, hs'.effects_of_bound hr']
        refine .replaced ?_
        cases hrow with
        | closed labels => exact .closed labels
        | @extended labels f f' hf =>
          refine Rows.under (ρ := ρ.restrict (· = .effect f))
            ⟨fun hw => (nomatch hw.1), fun hg => ?_⟩ (.extended labels ⟨rfl, hf⟩)
          exact ih _ (Subst.leadsTo_of_effects hr (congrArg some (Var.effect.inj hg.1).symm)) _ hg.2
  exact ⟨fun {v v'} hv => himages (.type v) v' hv, fun {e e'} he => himages (.effect e) e' he⟩

end Bind

/-! ## Solving -/

/-- The supplies of two unifications hand out matching variables in turn. -/
def Unifiers (ρ : Matching) (u u' : Unifier) : Prop := ρ.Supplies u.fresh u'.fresh

/-- Bindings found in lockstep from `s` and `s'` on. On the right, type variables without a match
are left alone. -/
structure Found (ρ : Matching) (s s' s₁ s₁' : Subst) : Prop where
  substs : ρ.Substs s₁ s₁'
  sameSize : s.SameSize s' → s₁.SameSize s₁'
  unmatched : ∀ {v'}, (∀ v, ¬ ρ.types v v') → s₁'.types.get? v' = s'.types.get? v'

theorem Substs.found_self (h : ρ.Substs s s') : ρ.Found s s' s s' :=
  ⟨h, id, fun _ => rfl⟩

theorem Substs.found_bindEffect (h : ρ.Substs s s') {e e' : EffectVar} {r r' : Row}
    (he : ρ.effects e e')
    (hr : ρ.Rows r r') : ρ.Found s s' (s.bindEffect e r) (s'.bindEffect e' r') :=
  ⟨h.bindEffect he hr, fun hsize => h.sameSize_bindEffect hsize he r r', fun _ => rfl⟩

theorem Substs.found_bindType (h : ρ.Substs s s') {v v' : TypeVar} {t t' : Ty} (hv : ρ.types v v')
    (ht : ρ.Types t t') :
    ρ.Found s s' (s.bindType v t) (s'.bindType v' t') where
  substs := h.bindType hv ht
  sameSize hsize := h.sameSize_bindType hsize hv t t'
  unmatched {w'} hw' := by
    have hne : w' ≠ v' := by
      rintro rfl
      exact hw' v hv
    simp [Subst.bindType, hne]

theorem Found.trans {s₁ s₁' s₂ s₂' : Subst} (h : ρ.Found s s' s₁ s₁') (h₁ : ρ.Found s₁ s₁' s₂ s₂') :
    ρ.Found s s' s₂ s₂' :=
  ⟨h₁.substs, fun hsize => h₁.sameSize (h.sameSize hsize),
    fun hv => (h₁.unmatched hv).trans (h.unmatched hv)⟩

end Matching

namespace Unify

open Matching

variable {ρ : Matching} {s s' s₁ : Subst} {u u' u₁ : Unifier}

theorem inStep_record (event event' : UnifyEvent) :
    InStep ρ.Conflicts ρ.Unifiers (record event) (record event') (fun _ _ => True) ρ.Unifiers :=
  .modify fun u u' h => by rwa [Unifiers, u.fresh_note, u'.fresh_note]

theorem inStep_freshEffectVar :
    InStep ρ.Conflicts ρ.Unifiers freshEffectVar freshEffectVar ρ.effects ρ.Unifiers :=
  .modifyGet fun _ _ h => h.effectVar

/-- Matching rows are solved alike. -/
theorem solveRows_lockstep {a a' b b' : Row} (hs : ρ.Substs s s') (ha : ρ.Rows a a')
    (hb : ρ.Rows b b') :
    InStep ρ.Conflicts ρ.Unifiers (solveRows s a b) (solveRows s' a' b') (ρ.Found s s')
      ρ.Unifiers := by
  have hconflict (why : RowConflict) :
      InStep ρ.Conflicts ρ.Unifiers (conflict why a b) (conflict why a' b') (ρ.Found s s')
        ρ.Unifiers :=
    (inStep_record ..).bind fun _ _ _ => .throw (.rowMismatch ha hb)
  have hrows := ha.eq_iff hb
  by_cases hsame : a = b
  · rw [solveRows, solveRows, if_pos hsame, if_pos (hrows.mp hsame)]
    exact .pure hs.found_self
  rw [solveRows, solveRows, if_neg hsame, if_neg (mt hrows.mpr hsame)]
  refine (inStep_record ..).bind fun _ _ _ => ?_
  -- labels are compared with labels only, so the same branch is taken on both sides
  have hlabels : a'.labelsNotIn b' = a.labelsNotIn b ∧ b'.labelsNotIn a' = b.labelsNotIn a := by
    simp only [Row.labelsNotIn, Row.has, ha.labels_eq, hb.labels_eq, and_self]
  rw [hlabels.1, hlabels.2]
  generalize a.labelsNotIn b = onlyA
  generalize b.labelsNotIn a = onlyB
  cases ha with
  | closed la =>
    cases hb with
    | closed lb =>
      dsimp only
      split
      · exact .pure hs.found_self
      · exact hconflict _
    | extended lb he =>
      dsimp only
      split
      · exact (inStep_record ..).bind fun _ _ _ => .pure (hs.found_bindEffect he (.closed _))
      · exact hconflict _
  | @extended la e e' he =>
    cases hb with
    | closed lb =>
      dsimp only
      split
      · exact (inStep_record ..).bind fun _ _ _ => .pure (hs.found_bindEffect he (.closed _))
      · exact hconflict _
    | @extended lb f f' hf =>
      have htails := Relator.rel_eq ρ.biUnique_effects he hf
      by_cases hshared : e = f
      · simp only [if_pos hshared, if_pos (htails.mp hshared)]
        exact hconflict _
      simp only [if_neg hshared, if_neg (mt htails.mpr hshared)]
      split
      · exact (inStep_record ..).bind fun _ _ _ => .pure (hs.found_bindEffect he (.extended _ hf))
      · refine inStep_freshEffectVar.bind fun tail tail' htail => ?_
        refine (inStep_record ..).bind fun _ _ _ => .pure ?_
        have hfound := hs.found_bindEffect he (.extended (Sorted.ofList onlyB) htail)
        exact hfound.trans (hfound.substs.found_bindEffect hf (.extended _ htail))

theorem rowStep_of_solveRows {a b : Row} (h : solveRows s a b u = .ok s₁ u₁) :
    RowStep a b s u.fresh s₁ u₁.fresh := by
  rcases solveRows_outcome s a b u with ⟨s₂, u₂, hok, hstep⟩ | ⟨-, err, u₂, herr⟩
  · obtain ⟨rfl, rfl⟩ : s₂ = s₁ ∧ u₂ = u₁ := by simpa [hok] using h
    exact hstep
  · simp [herr] at h

/-- The bindings of two configurations can be followed alike. -/
inductive Comparable (c c' : Config) : Prop
  | sameSize (h : c.subst.SameSize c'.subst)
  | valid (h : c.Valid) (h' : c'.Valid)

theorem Comparable.valuations {c c' : Config} (h : Comparable c c')
    (hs : ρ.Substs c.subst c'.subst) : ρ.Valuations ρ c.subst.valuation c'.subst.valuation := by
  cases h with
  | sameSize h => exact hs.valuations_of_sameSize h
  | valid h h' => exact hs.valuations_of_acyclic h.acyclic h'.acyclic

/-- A step on both sides keeps configurations comparable. -/
theorem Comparable.step {c c' c₁ c₁' : Config} (h : Comparable c c') (hstep : Step c c₁)
    (hstep' : Step c' c₁')
    (hsize : c.subst.SameSize c'.subst → c₁.subst.SameSize c₁'.subst) : Comparable c₁ c₁' := by
  cases h with
  | sameSize h => exact .sameSize (hsize h)
  | valid h h' => exact .valid (hstep.reaches h).valid (hstep'.reaches h').valid

theorem valuations_replacing {v v' : TypeVar} {t t' : Ty} (hv : ρ.types v v') (ht : ρ.Types t t') :
    ρ.Valuations ρ (replacing v t) (replacing v' t') := by
  refine ⟨fun {w w'} hw => ?_, .kept⟩
  have heq := Relator.rel_eq ρ.biUnique_types hw hv
  by_cases hwv : w = v
  · simpa [replacing, hwv, heq.mp hwv] using ht
  · simpa [replacing, hwv, mt heq.mpr hwv] using Types.var hw

private theorem equations_replaceAll {v v' : TypeVar} {t t' : Ty} {eqs eqs' : List Equation}
    (hv : ρ.types v v') (ht : ρ.Types t t') (heqs : Forall₂ ρ.Equations eqs eqs') :
    Forall₂ ρ.Equations (Equation.replaceAll v t eqs) (Equation.replaceAll v' t' eqs') := by
  rw [Equation.replaceAll, Equation.replaceAll, forall₂_map_left_iff,
    forall₂_map_right_iff]
  exact heqs.imp fun _ _ heq => heq.under (valuations_replacing hv ht)

private theorem equations_resolveAllRows {eqs eqs' : List Equation}
    (hs : ρ.Valuations ρ s.valuation s'.valuation) (heqs : Forall₂ ρ.Equations eqs eqs') :
    Forall₂ ρ.Equations (Equation.resolveAllRows s eqs) (Equation.resolveAllRows s' eqs') := by
  have hrows : ρ.Valuations ρ (rowsOnly s) (rowsOnly s') := ⟨.var, hs.effects⟩
  rw [Equation.resolveAllRows, Equation.resolveAllRows, forall₂_map_left_iff,
    forall₂_map_right_iff]
  exact heqs.imp fun _ _ heq => heq.under hrows

theorem sameOutcome_record {E : UnifyError → UnifyError → Prop} {R : Subst → Subst → Prop}
    {Q : Unifier → Unifier → Prop} (event event' : UnifyEvent) {x y : UnifyM Subst}
    (h : ∀ {u₁ u₁' : Unifier}, u₁.fresh = u.fresh → u₁'.fresh = u'.fresh →
      SameOutcome E R Q (x u₁) (y u₁')) :
    SameOutcome E R Q ((record event >>= fun _ => x) u) ((record event' >>= fun _ => y) u') :=
  h (u.fresh_note event) (u'.fresh_note event')

/-- Matching equations are solved alike. -/
theorem solve_lockstep {eqs eqs' : List Equation} (hs : ρ.Substs s s')
    (heqs : Forall₂ ρ.Equations eqs eqs') (hu : ρ.Unifiers u u')
    (hcomparable : Comparable ⟨s, eqs, u.fresh⟩ ⟨s', eqs', u'.fresh⟩) :
    SameOutcome ρ.Conflicts (ρ.Found s s') ρ.Unifiers (solve s eqs u) (solve s' eqs' u') := by
  induction s, eqs using solve.induct generalizing u u' s' eqs' with
  | case1 s =>
    cases heqs
    rw [solve, solve]
    exact .ok hs.found_self hu
  | case2 s a b rest ih =>
    cases heqs with
    | @cons _ eq' _ rest' heq hrest =>
      cases heq with
      | @rows _ a' _ b' ha hb =>
        rw [solve, solve]
        refine (solveRows_lockstep hs ha hb hu).bind fun {s₂ s₂' u₂ u₂'} hrow hrow' hfound hu₂ => ?_
        have hnext := hcomparable.step (.rows (rowStep_of_solveRows hrow))
          (.rows (rowStep_of_solveRows hrow')) hfound.sameSize
        have hvaluations := hnext.valuations hfound.substs
        have hsolved := ih s₂ hfound.substs (equations_resolveAllRows hvaluations hrest) hu₂ hnext
        exact hsolved.imp hfound.trans id
  | case3 s a rest ih =>
    cases heqs with
    | @cons _ eq' _ rest' heq hrest =>
      cases heq with
      | @types _ a' _ b' ha hb =>
        obtain rfl := (ha.eq_iff hb).mp rfl
        rw [solve, solve, if_pos rfl, if_pos rfl]
        refine sameOutcome_record _ _ fun hu₁ hu₁' => ih hs hrest ?_ ?_
        · rwa [Unifiers, hu₁, hu₁']
        · rw [hu₁, hu₁']
          exact hcomparable.step .identical .identical id
  | case4 s a b rest hne v t hb hv =>
    cases heqs with
    | @cons _ eq' _ rest' heq hrest =>
      cases heq with
      | @types _ a' _ b' hta htb =>
        obtain ⟨⟨v', t'⟩, hb', hvv', htt'⟩ := exists_of_rel_some (hb ▸ hta.binding? htb)
        have hv' : v' ∈ t'.typeOccurrences := by
          rw [Equation.mem_typeOccurrences] at hv ⊢
          exact (htt'.mem_occurrences_iff (.type hvv')).mp hv
        simp only [solve_types hne, hb, if_pos hv, solve_types (mt (hta.eq_iff htb).mpr hne), hb',
          if_pos hv']
        exact sameOutcome_record _ _ fun _ _ => .error (.occurs hvv' htt')
  | case5 s a b rest hne v t hb hv ih =>
    cases heqs with
    | @cons _ eq' _ rest' heq hrest =>
      cases heq with
      | @types _ a' _ b' hta htb =>
        obtain ⟨⟨v', t'⟩, hb', hvv', htt'⟩ := exists_of_rel_some (hb ▸ hta.binding? htb)
        have hv' : v' ∉ t'.typeOccurrences := by
          rw [Equation.mem_typeOccurrences] at hv ⊢
          exact mt (htt'.mem_occurrences_iff (.type hvv')).mpr hv
        simp only [solve_types hne, hb, if_neg hv, solve_types (mt (hta.eq_iff htb).mpr hne), hb',
          if_neg hv']
        have hfound := hs.found_bindType hvv' htt'
        refine sameOutcome_record _ _ fun hu₁ hu₁' => ?_
        refine (ih hfound.substs (equations_replaceAll hvv' htt' hrest) ?_ ?_).imp hfound.trans id
        · rwa [Unifiers, hu₁, hu₁']
        · rw [hu₁, hu₁']
          exact hcomparable.step (.bind (binding?_eq_some hb) hv) (.bind (binding?_eq_some hb') hv')
            hfound.sameSize
  | case6 s a b rest hne hb shape parts hd ih =>
    cases heqs with
    | @cons _ eq' _ rest' heq hrest =>
      cases heq with
      | @types _ a' _ b' hta htb =>
        obtain ⟨⟨_, parts'⟩, hd', rfl, hparts⟩ := exists_of_rel_some (hd ▸ hta.decompose? htb)
        simp only [solve_types hne, hb, hd, solve_types (mt (hta.eq_iff htb).mpr hne),
          eq_none_of_rel (hb ▸ hta.binding? htb), hd']
        refine sameOutcome_record _ _ fun hu₁ hu₁' => ih hs (rel_append hparts hrest) ?_ ?_
        · rwa [Unifiers, hu₁, hu₁']
        · rw [hu₁, hu₁']
          exact hcomparable.step (.decompose (Equation.decomposes_of_eq_some hd))
            (.decompose (Equation.decomposes_of_eq_some hd')) id
  | case7 s a b rest hne hb hd =>
    cases heqs with
    | @cons _ eq' _ rest' heq hrest =>
      cases heq with
      | @types _ a' _ b' hta htb =>
        simp only [solve_types hne, hb, hd, solve_types (mt (hta.eq_iff htb).mpr hne),
          eq_none_of_rel (hb ▸ hta.binding? htb), eq_none_of_rel (hd ▸ hta.decompose? htb)]
        exact sameOutcome_record _ _ fun _ _ => .error (.mismatch hta htb)

end Unify

end RowTyping
