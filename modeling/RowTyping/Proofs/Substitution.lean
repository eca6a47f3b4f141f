import Mathlib.Logic.Relation
import RowTyping.Proofs.Valuation

/-!
# Acyclic substitutions

The bindings of a substitution are triangular: a bound type may mention other bound variables. A
substitution is acyclic when following bindings never leads from a variable back to itself. Then
`Subst.apply` reaches the end of every chain, so that a bound variable stands for what its binding
stands for (`Subst.Acyclic.types_of_bound`, `Subst.Acyclic.effects_of_bound`), and a substitution
that keeps all bindings of another one absorbs it (`Subst.Extends.andThen_eq`).
-/

namespace RowTyping

open List

namespace Dict

variable {κ α : Type} [DecidableEq κ]

/-- A value found under a key is stored in an entry with this key. -/
theorem mem_entries_of_get? {d : Dict κ α} {k : κ} {a : α} (h : d.get? k = some a) :
    (k, a) ∈ d.entries := by
  obtain ⟨entries⟩ := d
  change lookup k entries = some a at h
  change (k, a) ∈ entries
  induction entries with
  | nil => cases h
  | cons entry rest ih =>
    rw [lookup] at h
    split at h
    · rename_i hk
      obtain rfl := Option.some.inj h
      rw [hk]
      exact .head _
    · exact .tail _ (ih h)

theorem mem_keys_of_get? {d : Dict κ α} {k : κ} {a : α} (h : d.get? k = some a) : k ∈ d.keys :=
  mem_map.mpr ⟨(k, a), mem_entries_of_get? h, rfl⟩

theorem mem_values_of_get? {d : Dict κ α} {k : κ} {a : α} (h : d.get? k = some a) :
    a ∈ d.values :=
  mem_map.mpr ⟨(k, a), mem_entries_of_get? h, rfl⟩

omit [DecidableEq κ] in
/-- The values after an insertion are the inserted one and values from before. -/
theorem mem_values_insert [Ord κ] {d : Dict κ α} {k : κ} {a b : α}
    (h : b ∈ (d.insert k a).values) : b = a ∨ b ∈ d.values := by
  obtain ⟨entries⟩ := d
  change b ∈ (place k a entries).map (·.2) at h
  change b = a ∨ b ∈ entries.map (·.2)
  induction entries with
  | nil => exact .inl (mem_singleton.mp h)
  | cons entry rest ih =>
    obtain ⟨k', a'⟩ := entry
    simp only [place] at h
    split at h
    · exact mem_cons.mp h
    · exact (mem_cons.mp h).imp_right (mem_cons_of_mem _)
    · rcases mem_cons.mp h with h | h
      · exact .inr (h ▸ (.head _))
      · exact (ih h).imp_right (mem_cons_of_mem _)

end Dict

namespace Subst

/-- What the variables stand for once all bindings are followed. -/
def valuation (s : Subst) : Valuation :=
  ⟨s.resolveType s.types.size, s.resolveEffect s.effects.size⟩

theorem apply_eq_under (s : Subst) (t : Ty) : s.apply t = t.under s.valuation := rfl

theorem applyRow_eq_under (s : Subst) (r : Row) : s.applyRow r = r.under s.valuation := rfl

variable {t : Ty} {x y : Var} {v : TypeVar} {e z : EffectVar} {r row : Row} {P : Var → Prop}

theorem mem_occurrences_apply {s : Subst} :
    x ∈ (s.apply t).occurrences ↔ ∃ y ∈ t.occurrences, x ∈ s.valuation.image y := by
  rw [apply_eq_under, Ty.mem_occurrences_under]

/-- Whether a variable has a binding. -/
def Binds (s : Subst) : Var → Prop
  | .type v => (s.types.get? v).isSome
  | .effect e => (s.effects.get? e).isSome

instance (s : Subst) : DecidablePred s.Binds
  | .type _ => inferInstanceAs (Decidable (_ = true))
  | .effect _ => inferInstanceAs (Decidable (_ = true))

/-- The variables of what a variable is bound to. -/
def targets (s : Subst) : Var → List Var
  | .type v => ((s.types.get? v).map Ty.occurrences).getD []
  | .effect e => (((s.effects.get? e).bind (·.tail)).map Var.effect).toList

/-- The binding of the first variable mentions the second one. -/
def LeadsTo (s : Subst) (x y : Var) : Prop :=
  y ∈ s.targets x

/-- Following bindings never leads from a variable back to itself. -/
def Acyclic (s : Subst) : Prop :=
  ∀ x, ¬ Relation.TransGen s.LeadsTo x x

variable {s s' : Subst}

theorem leadsTo_of_types (h : s.types.get? v = some t) (hy : y ∈ t.occurrences) :
    s.LeadsTo (.type v) y := by
  simpa [LeadsTo, targets, h] using hy

theorem leadsTo_of_effects {f : EffectVar} (h : s.effects.get? e = some r) (hf : r.tail = some f) :
    s.LeadsTo (.effect e) (.effect f) := by
  simp [LeadsTo, targets, h, hf]

theorem leadsTo_iff :
    s.LeadsTo x y ↔
      (∃ v t, x = .type v ∧ s.types.get? v = some t ∧ y ∈ t.occurrences) ∨
        ∃ e r f, x = .effect e ∧ s.effects.get? e = some r ∧ r.tail = some f ∧ y = .effect f := by
  rcases x with v | e
  · rcases ht : s.types.get? v with _ | t <;> simp [LeadsTo, targets, ht]
  · rcases hr : s.effects.get? e with _ | r
    · simp [LeadsTo, targets, hr]
    · rcases hf : r.tail with _ | f <;> simp [LeadsTo, targets, hr, hf]

theorem LeadsTo.binds (h : s.LeadsTo x y) : s.Binds x := by
  rcases leadsTo_iff.mp h with ⟨v, t, rfl, ht, -⟩ | ⟨e, r, f, rfl, hr, -, -⟩
  · simp [Binds, ht]
  · simp [Binds, hr]

theorem valuation_empty : empty.valuation = .self := rfl

theorem not_leadsTo_empty : ¬ empty.LeadsTo x y := by
  rcases x with v | e <;> exact not_mem_nil

theorem acyclic_empty : empty.Acyclic := by
  intro x hx
  obtain ⟨y, hxy, -⟩ := Relation.TransGen.head'_iff.mp hx
  exact not_leadsTo_empty hxy

/-- Bindings that lead only to variables without a way on create no cycle. -/
theorem Acyclic.of_sinks (h : s.Acyclic)
    (hnew : ∀ x y, s'.LeadsTo x y → s.LeadsTo x y ∨ ¬ s'.Binds y) : s'.Acyclic := by
  -- on a cycle every variable has a way on, so a cycle of `s'` has only steps of `s`
  have hpath {x y : Var} (hxy : Relation.TransGen s'.LeadsTo x y) (hy : s'.Binds y) :
      Relation.TransGen s.LeadsTo x y := by
    induction hxy with
    | single hstep => exact .single ((hnew _ _ hstep).resolve_right (not_not_intro hy))
    | tail _ hstep ih =>
      exact .tail (ih hstep.binds) ((hnew _ _ hstep).resolve_right (not_not_intro hy))
  intro x hx
  obtain ⟨y, hxy, -⟩ := Relation.TransGen.head'_iff.mp hx
  exact h x (hpath hx hxy.binds)

/-- A bound effect variable is a key. -/
theorem mem_keys_of_effects (h : s.effects.get? e = some r) :
    .effect e ∈ s.effects.keys.map Var.effect :=
  mem_map_of_mem (Dict.mem_keys_of_get? h)

theorem mem_keys_of_types (h : s.types.get? v = some t) : .type v ∈ s.types.keys.map Var.type :=
  mem_map_of_mem (Dict.mem_keys_of_get? h)

open Classical in
/-- How many variables of a list can be reached from a variable. -/
noncomputable def reach (s : Subst) (keys : List Var) (x : Var) : Nat :=
  (distinct (keys.filter fun k => Relation.ReflTransGen s.LeadsTo x k)).length

theorem reach_le_length (s : Subst) (keys : List Var) (x : Var) :
    s.reach keys x ≤ keys.length :=
  length_le_of_nodup_of_subset (nodup_distinct _) fun _ hk =>
    (mem_filter.mp (mem_distinct.mp hk)).1

/-- A listed variable reaches itself. -/
theorem reach_pos {keys : List Var} (hx : x ∈ keys) : 0 < s.reach keys x := by
  classical
  exact length_pos_of_mem
    (mem_distinct.mpr (mem_filter.mpr ⟨hx, decide_eq_true Relation.ReflTransGen.refl⟩))

/-- Without cycles, a step along a binding loses the variable it starts from. -/
theorem Acyclic.reach_lt (h : s.Acyclic) {keys : List Var} (hxy : s.LeadsTo x y) (hx : x ∈ keys) :
    s.reach keys y < s.reach keys x := by
  classical
  -- what the target reaches the source reaches too, and only the source reaches itself
  refine length_distinct_lt (b := x) (fun k hk => ?_) ?_ fun hk => ?_
  · obtain ⟨hk, hyk⟩ := mem_filter.mp hk
    exact mem_filter.mpr
      ⟨hk, decide_eq_true (Relation.ReflTransGen.head hxy (of_decide_eq_true hyk))⟩
  · exact mem_filter.mpr ⟨hx, decide_eq_true Relation.ReflTransGen.refl⟩
  · have hyx := of_decide_eq_true (mem_filter.mp hk).2
    exact h x (Relation.TransGen.head' hxy hyx)

/-- Without cycles, a property that passes from the variables of a binding to the bound variable
holds of all variables. -/
theorem Acyclic.induction (h : s.Acyclic) (step : ∀ x, (∀ y, s.LeadsTo x y → P y) → P x) (x : Var) :
    P x := by
  -- only bound variables lead anywhere, so their keys are enough to measure by
  let keys := s.types.keys.map Var.type ++ s.effects.keys.map Var.effect
  have hkeys {x y : Var} (hxy : s.LeadsTo x y) : x ∈ keys := by
    rcases leadsTo_iff.mp hxy with ⟨v, t, rfl, ht, -⟩ | ⟨e, r, f, rfl, hr, -, -⟩
    · exact mem_append_left _ (mem_keys_of_types ht)
    · exact mem_append_right _ (mem_keys_of_effects hr)
  induction hn : s.reach keys x using Nat.strongRecOn generalizing x with
  | _ n ih =>
    subst hn
    exact step x fun y hxy => ih _ (h.reach_lt hxy (hkeys hxy)) y rfl

/-! ## Following bindings to the end -/

theorem resolveEffect_of_unbound (h : s.effects.get? e = none) (n : Nat) :
    s.resolveEffect n e = none := by
  cases n with
  | zero => rfl
  | succ n => simp [resolveEffect, h]

/-- More steps than an effect variable reaches bound ones change nothing. -/
private theorem Acyclic.resolveEffect_stable (h : s.Acyclic) {m n : Nat}
    (hm : s.reach (s.effects.keys.map Var.effect) (.effect e) ≤ m) (hn : m ≤ n) :
    s.resolveEffect n e = s.resolveEffect m e := by
  -- every step along a binding uses up a key, and without keys in reach there is no binding
  induction m generalizing n e with
  | zero =>
    have hunbound : s.effects.get? e = none := by
      rcases hr : s.effects.get? e with _ | r
      · rfl
      · have := reach_pos (s := s) (mem_keys_of_effects hr)
        omega
    rw [resolveEffect_of_unbound hunbound, resolveEffect_of_unbound hunbound]
  | succ m ih =>
    obtain ⟨n, rfl⟩ : ∃ k, n = k + 1 := ⟨n - 1, by omega⟩
    rcases hr : s.effects.get? e with _ | r
    · rw [resolveEffect_of_unbound hr, resolveEffect_of_unbound hr]
    · have hrow : r.subst (s.resolveEffect n) = r.subst (s.resolveEffect m) := by
        refine Row.under_congr (V := ⟨.var, s.resolveEffect n⟩) (W := ⟨.var, s.resolveEffect m⟩)
          fun f hf => ?_
        have hlt := h.reach_lt (leadsTo_of_effects hr hf) (mem_keys_of_effects hr)
        exact ih (by omega) (by omega)
      simp [resolveEffect, hr, hrow]

/-- A bound effect variable stands for what its binding stands for. -/
theorem Acyclic.effects_of_bound (h : s.Acyclic) (hr : s.effects.get? e = some r) :
    s.valuation.effects e = some (r.under s.valuation) := by
  have hlen : s.reach (s.effects.keys.map Var.effect) (.effect e) ≤ s.effects.size := by
    refine Nat.le_trans (s.reach_le_length _ _) ?_
    simp [Dict.keys, Dict.size]
  have hstable := h.resolveEffect_stable hlen (Nat.le_succ _)
  rw [resolveEffect, hr] at hstable
  exact hstable.symm

theorem resolveType_of_unbound (h : s.types.get? v = none) (n : Nat) :
    s.resolveType n v = .var v := by
  cases n with
  | zero => rfl
  | succ n => simp [resolveType, h]

/-- More steps than a type variable reaches bound ones change nothing. -/
private theorem Acyclic.resolveType_stable (h : s.Acyclic) {m n : Nat}
    (hm : s.reach (s.types.keys.map Var.type) (.type v) ≤ m) (hn : m ≤ n) :
    s.resolveType n v = s.resolveType m v := by
  induction m generalizing n v with
  | zero =>
    have hunbound : s.types.get? v = none := by
      rcases ht : s.types.get? v with _ | t
      · rfl
      · have := reach_pos (s := s) (mem_keys_of_types ht)
        omega
    rw [resolveType_of_unbound hunbound, resolveType_of_unbound hunbound]
  | succ m ih =>
    obtain ⟨n, rfl⟩ : ∃ k, n = k + 1 := ⟨n - 1, by omega⟩
    rcases ht : s.types.get? v with _ | t
    · rw [resolveType_of_unbound ht, resolveType_of_unbound ht]
    · simp only [resolveType, ht]
      refine Ty.under_congr (V := ⟨s.resolveType n, s.resolveEffect s.effects.size⟩)
        (W := ⟨s.resolveType m, s.resolveEffect s.effects.size⟩) fun x hx => ?_
      -- rows are resolved to the end at every step, so only type variables are followed here
      rcases x with w | f
      · have hlt := h.reach_lt (leadsTo_of_types ht hx) (mem_keys_of_types ht)
        exact ih (by omega) (by omega)
      · rfl

/-- A bound type variable stands for what its binding stands for. -/
theorem Acyclic.types_of_bound (h : s.Acyclic) (ht : s.types.get? v = some t) :
    s.valuation.types v = t.under s.valuation := by
  have hlen : s.reach (s.types.keys.map Var.type) (.type v) ≤ s.types.size := by
    refine Nat.le_trans (s.reach_le_length _ _) ?_
    simp [Dict.keys, Dict.size]
  have hstable := h.resolveType_stable hlen (Nat.le_succ _)
  rw [resolveType, ht] at hstable
  exact hstable.symm

/-- An unbound type variable stands for itself. -/
theorem types_of_unbound (h : s.types.get? v = none) : s.valuation.types v = .var v :=
  resolveType_of_unbound h _

theorem effects_of_unbound (h : s.effects.get? e = none) : s.valuation.effects e = none :=
  resolveEffect_of_unbound h _

/-- Two valuations are equal once they agree at a variable whenever they agree at all variables of
its binding. -/
theorem Acyclic.valuation_ext (h : s.Acyclic) {V W : Valuation}
    (step : ∀ x, (∀ y, s.LeadsTo x y → V.AgreesAt W y) → V.AgreesAt W x) : V = W :=
  Valuation.eq_of_agreesAt (h.induction step)

/-! ## Growing substitutions -/

/-- The second substitution keeps all bindings of the first one. -/
structure Extends (s s' : Subst) : Prop where
  /-- Bound type variables keep their types. -/
  types : ∀ {v t}, s.types.get? v = some t → s'.types.get? v = some t
  /-- Bound effect variables keep their rows. -/
  effects : ∀ {e r}, s.effects.get? e = some r → s'.effects.get? e = some r

theorem Extends.refl (s : Subst) : s.Extends s := ⟨id, id⟩

theorem Extends.trans {s'' : Subst} (h : s.Extends s') (h' : s'.Extends s'') : s.Extends s'' :=
  ⟨fun ht => h'.types (h.types ht), fun hr => h'.effects (h.effects hr)⟩

/-- Applying an extension absorbs an earlier application of the substitution it extends. -/
theorem Extends.andThen_eq (h : s.Extends s') (hs : s.Acyclic) (hs' : s'.Acyclic) :
    s.valuation.andThen s'.valuation = s'.valuation := by
  refine hs.valuation_ext fun x ih => ?_
  rcases x with v | e
  · change (s.valuation.types v).under s'.valuation = s'.valuation.types v
    rcases ht : s.types.get? v with _ | t
    · rw [types_of_unbound ht, Ty.under_var]
    · rw [hs.types_of_bound ht, hs'.types_of_bound (h.types ht), ← Ty.under_andThen]
      exact Ty.under_congr fun y hy => ih y (leadsTo_of_types ht hy)
  · rcases hr : s.effects.get? e with _ | r
    · simp [Valuation.AgreesAt, Valuation.andThen, effects_of_unbound hr]
    · have hrow : (r.under s.valuation).under s'.valuation = r.under s'.valuation := by
        rw [← Row.under_andThen]
        exact Row.under_congr fun f hf => ih (.effect f) (leadsTo_of_effects hr hf)
      simp [Valuation.AgreesAt, Valuation.andThen, hs.effects_of_bound hr,
        hs'.effects_of_bound (h.effects hr), hrow]

/-- The second substitution keeps all bindings of the first one and adds bindings of variables with
a property to types and rows over such variables. -/
structure Grows (s s' : Subst) (P : Var → Prop) : Prop where
  /-- All bindings are kept. -/
  keeps : s.Extends s'
  /-- New bindings bind variables with the property. -/
  binds : ∀ {x}, s'.Binds x → s.Binds x ∨ P x
  /-- New bindings mention only variables with the property. -/
  leads : ∀ {x y}, s'.LeadsTo x y → s.LeadsTo x y ∨ P x ∧ P y

theorem Grows.refl (s : Subst) (P : Var → Prop) : s.Grows s P :=
  ⟨.refl s, .inl, .inl⟩

theorem Grows.mono {Q : Var → Prop} (h : s.Grows s' P) (hPQ : ∀ {x}, P x → Q x) : s.Grows s' Q :=
  ⟨h.keeps, fun hx => (h.binds hx).imp_right hPQ,
    fun hxy => (h.leads hxy).imp_right fun hP => ⟨hPQ hP.1, hPQ hP.2⟩⟩

theorem Grows.trans {s'' : Subst} {P : Var → Prop} (h : s.Grows s' P) (h' : s'.Grows s'' P) :
    s.Grows s'' P where
  keeps := h.keeps.trans h'.keeps
  binds hx := (h'.binds hx).elim h.binds .inr
  leads hxy := (h'.leads hxy).elim h.leads .inr

/-! ## Variables behind a variable -/

/-- Following the bindings from a variable ends at unbound variables that it leads to. -/
theorem Acyclic.mem_image (h : s.Acyclic) (hy : y ∈ s.valuation.image x) :
    Relation.ReflTransGen s.LeadsTo x y ∧ ¬ s.Binds y := by
  revert y
  refine h.induction (P := fun x => ∀ {y}, y ∈ s.valuation.image x →
    Relation.ReflTransGen s.LeadsTo x y ∧ ¬ s.Binds y) (fun x ih y hy => ?_) x
  rcases x with v | e
  · change y ∈ (s.valuation.types v).occurrences at hy
    rcases ht : s.types.get? v with _ | t
    · rw [types_of_unbound ht, Ty.occurrences, mem_singleton] at hy
      subst hy
      exact ⟨.refl, by simp [Binds, ht]⟩
    · rw [h.types_of_bound ht] at hy
      obtain ⟨z, hz, hy⟩ := Ty.mem_occurrences_under.mp hy
      obtain ⟨hpath, hunbound⟩ := ih z (leadsTo_of_types ht hz) hy
      exact ⟨.head (leadsTo_of_types ht hz) hpath, hunbound⟩
  · rcases hr : s.effects.get? e with _ | r
    · obtain rfl : y = .effect e := by
        simpa [Valuation.image, Valuation.row_of_none (effects_of_unbound hr), Row.ofVar] using hy
      exact ⟨.refl, by simp [Binds, hr]⟩
    · have htail : (s.valuation.row e).tail = r.tail.bind fun f => (s.valuation.row f).tail := by
        rw [← Row.tail_under, Valuation.row_of_some (h.effects_of_bound hr)]
      rcases hf : r.tail with _ | f
      · simp [Valuation.image, htail, hf] at hy
      · have hy' : y ∈ s.valuation.image (.effect f) := by
          simpa [Valuation.image, htail, hf] using hy
        obtain ⟨hpath, hunbound⟩ := ih _ (leadsTo_of_effects hr hf) hy'
        exact ⟨.head (leadsTo_of_effects hr hf) hpath, hunbound⟩

/-- Variables without a binding keep the meaning they are given afterwards. -/
theorem agreesAt_of_not_binds (hx : ¬ s.Binds x) (U : Valuation) :
    (s.valuation.andThen U).AgreesAt U x := by
  rcases x with v | e
  · have hnone : s.types.get? v = none := by simpa [Binds] using hx
    simp [Valuation.AgreesAt, Valuation.andThen, types_of_unbound hnone]
  · have hnone : s.effects.get? e = none := by simpa [Binds] using hx
    simp [Valuation.AgreesAt, Valuation.andThen, effects_of_unbound hnone]

/-- A variable without a binding stands for itself. -/
theorem image_of_not_binds (h : ¬ s.Binds x) : s.valuation.image x = [x] := by
  rcases x with v | e
  · have hnone : s.types.get? v = none := by simpa [Binds] using h
    simp [Valuation.image, types_of_unbound hnone, Ty.occurrences]
  · have hnone : s.effects.get? e = none := by simpa [Binds] using h
    simp [Valuation.image, Valuation.row_of_none (effects_of_unbound hnone), Row.ofVar]

/-- What is behind a variable of a binding is behind the bound variable. -/
theorem Acyclic.image_of_leadsTo (h : s.Acyclic) {z : Var} (hxy : s.LeadsTo x y)
    (hz : z ∈ s.valuation.image y) :
    z ∈ s.valuation.image x := by
  rcases leadsTo_iff.mp hxy with ⟨v, t, rfl, ht, hy⟩ | ⟨e, r, f, rfl, hr, hf, rfl⟩
  · change z ∈ (s.valuation.types v).occurrences
    rw [h.types_of_bound ht]
    exact Ty.mem_occurrences_under.mpr ⟨y, hy, hz⟩
  · rw [Valuation.image, Valuation.row_of_some (h.effects_of_bound hr), Row.tail_under, hf]
    exact hz

/-- The variable is bound or occurs in a binding. -/
def Mentions (s : Subst) (x : Var) : Prop :=
  s.Binds x ∨ ∃ y, s.LeadsTo y x

theorem not_mentions_empty : ¬ empty.Mentions x := by
  rintro (h | ⟨y, hy⟩)
  · cases x <;> cases h
  · exact not_leadsTo_empty hy

theorem Grows.mentions (h : s.Grows s' P) (hx : s'.Mentions x) : s.Mentions x ∨ P x := by
  rcases hx with hx | ⟨y, hyx⟩
  · exact (h.binds hx).imp_left .inl
  · exact (h.leads hyx).imp (fun hyx => .inr ⟨y, hyx⟩) And.right

/-- What is left after following the bindings from a variable is the variable or mentioned. -/
theorem Acyclic.mentions_of_mem_image (h : s.Acyclic) (hy : y ∈ s.valuation.image x) :
    y = x ∨ s.Mentions y := by
  rcases (h.mem_image hy).1.cases_tail with rfl | ⟨z, -, hzy⟩
  · exact .inl rfl
  · exact .inr (.inr ⟨z, hzy⟩)

/-- Bindings of variables with a property mention only variables with this property. -/
def ClosedOn (s : Subst) (P : Var → Prop) : Prop :=
  ∀ x y, P x → s.LeadsTo x y → P y

theorem ClosedOn.grows (h : s.ClosedOn P) (hgrows : s.Grows s' P) : s'.ClosedOn P :=
  fun x y hx hxy => (hgrows.leads hxy).elim (h x y hx) And.right

theorem ClosedOn.of_path (h : s.ClosedOn P) (hx : P x)
    (hpath : Relation.ReflTransGen s.LeadsTo x y) : P y := by
  induction hpath with
  | refl => exact hx
  | tail _ hstep ih => exact h _ _ ih hstep

/-! ## Adding a binding -/

theorem binds_bindType : (s.bindType v t).Binds x ↔ x = .type v ∨ s.Binds x := by
  rcases x with w | e
  · by_cases h : w = v <;> simp [Binds, bindType, h]
  · simp [Binds, bindType]

theorem leadsTo_bindType (h : (s.bindType v t).LeadsTo x y) :
    x = .type v ∧ y ∈ t.occurrences ∨ s.LeadsTo x y := by
  rcases x with w | e
  · by_cases hw : w = v
    · exact .inl ⟨by rw [hw], by simpa [LeadsTo, targets, bindType, hw] using h⟩
    · exact .inr (by simpa [LeadsTo, targets, bindType, hw] using h)
  · exact .inr h

theorem extends_bindType {v : TypeVar} {t : Ty} (h : ¬ s.Binds (.type v)) :
    s.Extends (s.bindType v t) where
  types {w u} hw := by
    have hne : w ≠ v := by
      rintro rfl
      exact h (by simp [Binds, hw])
    simpa [bindType, hne] using hw
  effects he := he

/-- Binding an unbound type variable to a type over other unbound variables. -/
theorem grows_bindType (hv : ¬ s.Binds (.type v)) (hPv : P (.type v))
    (hPt : ∀ x ∈ t.occurrences, P x) :
    s.Grows (s.bindType v t) P where
  keeps := extends_bindType hv
  binds hx := (binds_bindType.mp hx).elim (fun h => .inr (h ▸ hPv)) .inl
  leads hxy := (leadsTo_bindType hxy).elim (fun h => .inr ⟨h.1 ▸ hPv, hPt _ h.2⟩) .inl

theorem leadsTo_bindEffect (h : (s.bindEffect z row).LeadsTo x y) :
    (x = .effect z ∧ ∃ e, row.tail = some e ∧ y = .effect e) ∨ s.LeadsTo x y := by
  rcases x with v | e
  · exact .inr h
  · by_cases he : e = z
    · refine .inl ⟨by rw [he], ?_⟩
      simpa [LeadsTo, targets, bindEffect, he, eq_comm] using h
    · exact .inr (by simpa [LeadsTo, targets, bindEffect, he] using h)

theorem binds_bindEffect : (s.bindEffect z row).Binds x ↔ x = .effect z ∨ s.Binds x := by
  rcases x with v | e
  · simp [Binds, bindEffect]
  · by_cases he : e = z <;> simp [Binds, bindEffect, he]

theorem Acyclic.bindEffect (hs : s.Acyclic)
    (hrow : ∀ e, row.tail = some e → e ≠ z ∧ ¬ s.Binds (.effect e)) :
    (s.bindEffect z row).Acyclic := by
  -- the tail of the row is bound neither before nor by the new binding
  refine hs.of_sinks fun x y hxy => ?_
  rcases leadsTo_bindEffect hxy with ⟨-, e, he, rfl⟩ | hxy
  · obtain ⟨hne, hunbound⟩ := hrow e he
    refine .inr fun hbinds => ?_
    rcases binds_bindEffect.mp hbinds with heq | hbinds
    · exact hne (Var.effect.inj heq)
    · exact hunbound hbinds
  · exact .inl hxy

/-! ## Sorted rows -/

/-- All rows of all bindings are sorted. -/
structure RowsSorted (s : Subst) : Prop where
  /-- The rows of bound types are sorted. -/
  types : ∀ {v t}, s.types.get? v = some t → t.RowsSorted
  /-- Bound rows are sorted. -/
  effects : ∀ {e r}, s.effects.get? e = some r → r.IsSorted

theorem rowsSorted_empty : empty.RowsSorted where
  types ht := nomatch ht
  effects hr := nomatch hr

/-- What type variables stand for has sorted rows. -/
theorem RowsSorted.valuation (h : s.RowsSorted) (hs : s.Acyclic) (v : TypeVar) :
    (s.valuation.types v).RowsSorted := by
  refine hs.induction (P := fun x => ∀ v, x = .type v → (s.valuation.types v).RowsSorted)
    (fun x ih v hx => ?_) (.type v) v rfl
  subst hx
  rcases ht : s.types.get? v with _ | t
  · rw [types_of_unbound ht]
    exact fun r hr => (not_mem_nil hr).elim
  · rw [hs.types_of_bound ht]
    exact (h.types ht).under fun w hw => ih (.type w) (leadsTo_of_types ht hw) w rfl

/-! ## Valuations that respect the bindings -/

end Subst

/-- Every bound variable stands for what its binding stands for. -/
structure Valuation.Models (V : Valuation) (s : Subst) : Prop where
  /-- Bound type variables stand for what their types stand for. -/
  types : ∀ {v t}, s.types.get? v = some t → V.types v = t.under V
  /-- Bound effect variables stand for what their rows stand for. -/
  effects : ∀ {e r}, s.effects.get? e = some r → V.row e = r.under V

namespace Subst

variable {s s' : Subst} {V : Valuation}

/-- Following all bindings respects them. -/
theorem Acyclic.models (h : s.Acyclic) (hrows : s.RowsSorted) : s.valuation.Models s where
  types ht := h.types_of_bound ht
  effects {e r} hr := by
    have hsorted : Sorted.ofList (r.under s.valuation).labels = (r.under s.valuation).labels :=
      Sorted.IsSorted.ofList_eq ((hrows.effects hr).under _)
    rw [Valuation.row_of_some (h.effects_of_bound hr), hsorted]

/-- A valuation that respects the bindings absorbs an application of the substitution. -/
theorem Acyclic.sameAt_of_models (h : s.Acyclic) (hrows : s.RowsSorted) (hV : V.Models s)
    (x : Var) :
    (s.valuation.andThen V).SameAt V x := by
  refine h.induction (fun x ih => ?_) x
  rcases x with v | e
  · change (s.valuation.types v).under V = V.types v
    rcases ht : s.types.get? v with _ | t
    · rw [types_of_unbound ht, Ty.under_var]
    · rw [h.types_of_bound ht, hV.types ht, ← Ty.under_andThen]
      exact (hrows.types ht).under_congr fun y hy => ih y (leadsTo_of_types ht hy)
  · change (s.valuation.andThen V).row e = V.row e
    rw [Valuation.row_andThen]
    rcases hr : s.effects.get? e with _ | r
    · rw [Valuation.row_of_none (effects_of_unbound hr)]
      rfl
    · rw [(h.models hrows).effects hr, hV.effects hr, ← Row.under_andThen]
      exact (hrows.effects hr).under_congr fun f hf => ih (.effect f) (leadsTo_of_effects hr hf)

theorem Extends.models (h : s.Extends s') (hV : V.Models s') :
    V.Models s :=
  ⟨fun ht => hV.types (h.types ht), fun hr => hV.effects (h.effects hr)⟩

end Subst

/-- Applying the substitution first makes no difference to what variables stand for. -/
def Valuation.Absorbs (V : Valuation) (s : Subst) : Prop :=
  s.valuation.andThen V = V

namespace Subst

variable {s s' : Subst} {V : Valuation}

/-- What comes after applying a substitution absorbs it. -/
theorem Acyclic.absorbs_andThen (h : s.Acyclic) (V : Valuation) :
    (s.valuation.andThen V).Absorbs s := by
  rw [Valuation.Absorbs, ← Valuation.andThen_assoc, (Extends.refl s).andThen_eq h h]

theorem Acyclic.absorbs (h : s.Acyclic) : s.valuation.Absorbs s :=
  (Extends.refl s).andThen_eq h h

theorem Extends.absorbs (h : s.Extends s') (hs : s.Acyclic) (hs' : s'.Acyclic)
    (hV : V.Absorbs s') : V.Absorbs s := by
  rw [Valuation.Absorbs, ← hV, ← Valuation.andThen_assoc, h.andThen_eq hs hs']

theorem under_apply (hV : V.Absorbs s) (t : Ty) : (s.apply t).under V = t.under V := by
  rw [apply_eq_under, ← Ty.under_andThen, hV]

theorem under_applyRow (hV : V.Absorbs s) (r : Row) : (s.applyRow r).under V = r.under V := by
  rw [applyRow_eq_under, ← Row.under_andThen, hV]

end Subst

end RowTyping
