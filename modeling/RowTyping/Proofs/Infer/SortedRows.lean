import RowTyping.Proofs.Infer.Generalize
import RowTyping.Proofs.Infer.Resolve

/-!
# Sorted rows

Looking a label up by repeated halving finds it only among labels in strictly increasing order. All
functions that build rows keep them so: given types and bindings with sorted rows, they produce and
store sorted rows only, also when they fail (`Keeps`). So do the steps of unification
(`Unify.Step.rowsSorted`), and so every pair of rows whose labels it looks up is sorted.
-/

namespace RowTyping

open List

/-! ## Substitutions -/

section Entries

variable {κ α : Type} [Ord κ] [DecidableEq κ] {P : α → Prop}

theorem Dict.forall_values_insertNew {d : Dict κ α} (h : ∀ b ∈ d.values, P b) {a : α} (ha : P a)
    (k : κ) :
    ∀ b ∈ (d.insertNew k a).values, P b := by
  rw [insertNew]
  split
  · exact h
  · exact fun b hb => (mem_values_insert hb).elim (· ▸ ha) (h b)

/-- A composition stores nothing but what stored values come out as. -/
theorem Subst.forall_values_composeBindings [DecidableEq α] {self : κ → α}
    {resolve resolveLater : α → α}
    {first later : Dict κ α} (hfirst : ∀ a ∈ first.values, P (resolve a))
    (hlater : ∀ a ∈ later.values, P (resolveLater a)) :
    ∀ a ∈ (composeBindings self resolve resolveLater first later).values, P a := by
  have hfold {f : α → α} {skip : κ × α → Prop} [DecidablePred skip] {entries : List (κ × α)}
    {d : Dict κ α}
      (hd : ∀ a ∈ d.values, P a) (hf : ∀ entry ∈ entries, P (f entry.2)) :
      ∀ a ∈ (entries.foldl (fun d e => if skip e then d else d.insertNew e.1 (f e.2)) d).values,
        P a := by
    refine List.foldlRecOn (motive := fun d => ∀ a ∈ Dict.values d, P a) _ _ hd
      fun d hd entry hentry => ?_
    split
    · exact hd
    · exact Dict.forall_values_insertNew hd (hf entry hentry) _
  refine hfold (hfold (forall_mem_nil _) fun entry hentry => ?_) fun entry hentry => ?_
  · exact hfirst _ (mem_map_of_mem hentry)
  · exact hlater _ (mem_map_of_mem hentry)

end Entries

theorem Ty.rowsSorted_var (v : TypeVar) : (var v).RowsSorted := forall_mem_nil _

theorem Row.IsSorted.applyRow {r : Row} (h : r.IsSorted) (s : Subst) : (s.applyRow r).IsSorted :=
  h.under s.valuation

namespace Subst

variable {s later : Subst}

/-- All rows that are stored are sorted. -/
structure StoresSorted (s : Subst) : Prop where
  types : ∀ t ∈ s.types.values, t.RowsSorted
  effects : ∀ r ∈ s.effects.values, r.IsSorted

theorem storesSorted_empty : empty.StoresSorted := ⟨forall_mem_nil _, forall_mem_nil _⟩

theorem StoresSorted.bindType (h : s.StoresSorted) {t : Ty} (ht : t.RowsSorted) (v : TypeVar) :
    (s.bindType v t).StoresSorted :=
  ⟨fun u hu => (Dict.mem_values_insert hu).elim (· ▸ ht) (h.types u), h.effects⟩

theorem StoresSorted.bindEffect (h : s.StoresSorted) {r : Row} (hr : r.IsSorted) (e : EffectVar) :
    (s.bindEffect e r).StoresSorted :=
  ⟨h.types, fun u hu => (Dict.mem_values_insert hu).elim (· ▸ hr) (h.effects u)⟩

theorem StoresSorted.resolveType (h : s.StoresSorted) (n : Nat) (v : TypeVar) :
    (s.resolveType n v).RowsSorted := by
  induction n generalizing v with
  | zero => exact Ty.rowsSorted_var v
  | succ n ih =>
    rw [Subst.resolveType]
    split
    · exact Ty.rowsSorted_var v
    · rename_i t ht
      exact Ty.RowsSorted.under (V := ⟨_, _⟩) (h.types t (Dict.mem_values_of_get? ht))
        fun w _ => ih w

theorem StoresSorted.apply (h : s.StoresSorted) {t : Ty} (ht : t.RowsSorted) :
    (s.apply t).RowsSorted :=
  ht.under (V := s.valuation) fun v _ => h.resolveType _ v

theorem StoresSorted.compose (h : s.StoresSorted) (hlater : later.StoresSorted) :
    (s.compose later).StoresSorted where
  types := forall_values_composeBindings (fun t ht => hlater.apply (h.apply (h.types t ht)))
    fun t ht => hlater.apply (hlater.types t ht)
  effects := forall_values_composeBindings
    (fun r hr => ((h.effects r hr).applyRow s).applyRow later)
    fun r hr => (hlater.effects r hr).applyRow later

end Subst

/-! ## Computations that keep an invariant -/

section Keeps

variable {ε σ α β : Type} {P : σ → Prop} {R : α → Prop} {S : β → Prop} {E : ε → Prop}

/-- From states with `P` the computation leaves states with `P`, also if it fails. Its results
satisfy `R` and its errors `E`. -/
def Keeps (P : σ → Prop) (R : α → Prop) (E : ε → Prop) (x : EStateM ε σ α) : Prop :=
  ∀ ⦃st⦄, P st → match x st with
    | .ok a st' => P st' ∧ R a
    | .error e st' => P st' ∧ E e

namespace Keeps

theorem pure {a : α} (h : R a) : Keeps P R E (Pure.pure a : EStateM ε σ α) :=
  fun _ hst => ⟨hst, h⟩

theorem throw {e : ε} (h : E e) : Keeps P R E (MonadExcept.throw e : EStateM ε σ α) :=
  fun _ hst => ⟨hst, h⟩

theorem bind {x : EStateM ε σ α} {f : α → EStateM ε σ β} (h : Keeps P R E x)
    (hf : ∀ a, R a → Keeps P S E (f a)) :
    Keeps P S E (x >>= f) := by
  intro st hst
  have hx := h hst
  split at hx
  · rw [bind_of_ok ‹_›]
    exact hf _ hx.2 hx.1
  · rw [bind_of_error ‹_›]
    exact hx

theorem get_bind {f : σ → EStateM ε σ α} (h : ∀ st, P st → Keeps P R E (f st)) :
    Keeps P R E (get >>= f) :=
  fun st hst => h st hst hst

theorem modifyGet {g : σ → α × σ} (h : ∀ st, P st → P (g st).2 ∧ R (g st).1) :
    Keeps P R E (modifyGet g : EStateM ε σ α) :=
  fun st hst => h st hst

end Keeps

end Keeps

/-! ## Unification -/

/-- All rows of an event are sorted. -/
def UnifyEvent.RowsSorted : UnifyEvent → Prop
  | .identical t | .bind _ t | .occursCheck _ t => t.RowsSorted
  | .decompose _ a b | .mismatch a b => a.RowsSorted ∧ b.RowsSorted
  | .rows a b | .closeTail a b _ _ | .joinTails a b _ _ | .shareTail a b _ _ _
  | .rowConflict _ a b =>
    a.IsSorted ∧ b.IsSorted

/-- All rows of an error are sorted. -/
def UnifyError.RowsSorted : UnifyError → Prop
  | .mismatch a b => a.RowsSorted ∧ b.RowsSorted
  | .rowMismatch a b => a.IsSorted ∧ b.IsSorted
  | .occurs _ t => t.RowsSorted

/-- All rows that have been recorded are sorted. -/
def Unifier.RowsSorted (u : Unifier) : Prop :=
  ∀ event ∈ u.events, event.RowsSorted

namespace Unify

variable {s : Subst} {α : Type} {R : α → Prop}

/-- The computation keeps rows sorted. -/
abbrev Sorts (R : α → Prop) (x : UnifyM α) : Prop :=
  Keeps Unifier.RowsSorted R UnifyError.RowsSorted x

theorem sorts_record_bind (event : UnifyEvent) (h : event.RowsSorted) {x : UnifyM α}
    (hx : Sorts R x) :
    Sorts R (record event >>= fun _ => x) := by
  refine Keeps.bind (R := fun _ => True) (.modifyGet fun u hu => ⟨?_, trivial⟩) fun _ _ => hx
  change (u.note event).RowsSorted
  rw [Unifier.note]
  split
  · exact fun event' hevent => (Array.mem_push.mp hevent).elim (hu event') (· ▸ h)
  · exact hu

theorem sorts_solveRows (hs : s.StoresSorted) {a b : Row} (ha : a.IsSorted) (hb : b.IsSorted) :
    Sorts Subst.StoresSorted (solveRows s a b) := by
  have hconflict (why : RowConflict) : Sorts Subst.StoresSorted (conflict why a b) :=
    sorts_record_bind (.rowConflict _ _ _) ⟨ha, hb⟩ (.throw ⟨ha, hb⟩)
  have hbind {s' : Subst} (hs' : s'.StoresSorted) {event : UnifyEvent}
      (hevent : a.IsSorted ∧ b.IsSorted → event.RowsSorted) :
        Sorts Subst.StoresSorted (do record event; return s') :=
    sorts_record_bind event (hevent ⟨ha, hb⟩) (.pure hs')
  rw [solveRows]
  split
  · exact .pure hs
  refine sorts_record_bind (.rows _ _) ⟨ha, hb⟩ ?_
  dsimp only
  split
  · split
    · exact .pure hs
    · exact hconflict _
  · split
    · exact hbind (hs.bindEffect (Row.isSorted_closed _) _) id
    · exact hconflict _
  · split
    · exact hbind (hs.bindEffect (Row.isSorted_closed _) _) id
    · exact hconflict _
  · split
    · exact hconflict _
    · split
      · exact hbind (hs.bindEffect (Row.isSorted_ofVar _) _) id
      · refine Keeps.bind (R := fun _ => True) (.modifyGet fun u hu => ⟨hu, trivial⟩)
          fun tail _ => hbind ?_ id
        exact (hs.bindEffect (Row.isSorted_extensible _ _) _).bindEffect
          (Row.isSorted_extensible _ _) _

/-- All rows of a configuration are sorted. -/
structure Config.RowsSorted (c : Config) : Prop where
  subst : c.subst.StoresSorted
  eqs : ∀ eq ∈ c.eqs, eq.RowsSorted

theorem rowsSorted_resolveAllRows {eqs : List Equation} (h : ∀ eq ∈ eqs, eq.RowsSorted)
    (s : Subst) : ∀ eq ∈ Equation.resolveAllRows s eqs, eq.RowsSorted :=
  forall_mem_map.mpr fun eq heq => (h eq heq).under (V := ⟨.var, _⟩) fun v _ => Ty.rowsSorted_var v

/-- Solving a row equation binds tails to sorted rows. -/
theorem RowStep.storesSorted {a b : Row} {s' : Subst} {f f' : Fresh}
    (h : RowStep a b s f s' f') (hs : s.StoresSorted) : s'.StoresSorted := by
  induction h with
  | refl | closed => exact hs
  | close => exact hs.bindEffect (Row.isSorted_closed _) _
  | join => exact hs.bindEffect (Row.isSorted_ofVar _) _
  | share =>
    exact (hs.bindEffect (Row.isSorted_extensible _ _) _).bindEffect (Row.isSorted_extensible _ _) _
  | symm _ ih => exact ih hs

/-- A step keeps all rows sorted. -/
theorem Step.rowsSorted {c c' : Config} (h : Step c c') (hc : c.RowsSorted) : c'.RowsSorted := by
  obtain ⟨hs, heqs⟩ := hc
  cases h with
  | rows h =>
    exact ⟨h.storesSorted hs, rowsSorted_resolveAllRows (forall_mem_cons.mp heqs).2 _⟩
  | identical => exact ⟨hs, (forall_mem_cons.mp heqs).2⟩
  | @bind a b t v s f rest hab hv =>
    obtain ⟨hhead, hrest⟩ := forall_mem_cons.mp heqs
    have ht := rowsSorted_bound hab hhead
    refine ⟨hs.bindType ht v, forall_mem_map.mpr fun eq heq => ?_⟩
    refine (hrest eq heq).under (V := ⟨fun w => if w = v then t else .var w, fun _ => none⟩)
      fun w _ => ?_
    change (ite _ _ _ : Ty).RowsSorted
    split
    · exact ht
    · exact Ty.rowsSorted_var w
  | decompose h =>
    obtain ⟨hhead, hrest⟩ := forall_mem_cons.mp heqs
    exact ⟨hs, forall_mem_append.mpr ⟨fun eq heq r hr => hhead r (h.mem_rowsOf heq hr), hrest⟩⟩

/-- All rows are sorted at every point of a run. -/
theorem Steps.rowsSorted {c c' : Config} (h : Steps c c') (hc : c.RowsSorted) : c'.RowsSorted := by
  induction h with
  | refl => exact hc
  | tail _ hstep ih => exact hstep.rowsSorted ih

theorem sorts_solve {eqs : List Equation} {f : Fresh} (hc : Config.RowsSorted ⟨s, eqs, f⟩) :
    Sorts Subst.StoresSorted (solve s eqs) := by
  have hsides {s : Subst} {a b : Ty} {rest : List Equation}
      (hc : Config.RowsSorted ⟨s, .types a b :: rest, f⟩) : a.RowsSorted ∧ b.RowsSorted :=
    forall_mem_append.mp (hc.eqs _ (.head _))
  induction s, eqs using solve.induct with
  | case1 s =>
    rw [solve]
    exact .pure hc.subst
  | case2 s a b rest ih =>
    rw [solve]
    obtain ⟨hrows, hrest⟩ := forall_mem_cons.mp hc.eqs
    exact (sorts_solveRows hc.subst (hrows a (.head _)) (hrows b (.tail _ (.head _)))).bind
      fun s' hs' => ih s' ⟨hs', rowsSorted_resolveAllRows hrest s'⟩
  | case3 s a rest ih =>
    rw [solve, if_pos rfl]
    exact sorts_record_bind (.identical _) (hsides hc).1 (ih (Step.identical.rowsSorted hc))
  | case4 s a b rest hne v t hb hv =>
    simp only [solve_types hne, hb, if_pos hv]
    have ht := rowsSorted_bound (binding?_eq_some hb) (hc.eqs _ (.head _))
    exact sorts_record_bind (.occursCheck _ _) ht (.throw ht)
  | case5 s a b rest hne v t hb hv ih =>
    simp only [solve_types hne, hb, if_neg hv]
    have ht := rowsSorted_bound (binding?_eq_some hb) (hc.eqs _ (.head _))
    exact sorts_record_bind (.bind _ _) ht
      (ih ((Step.bind (binding?_eq_some hb) hv).rowsSorted hc))
  | case6 s a b rest hne hb shape parts hd ih =>
    simp only [solve_types hne, hb, hd]
    exact sorts_record_bind (.decompose _ _ _) (hsides hc)
      (ih ((Step.decompose (Equation.decomposes_of_eq_some hd)).rowsSorted hc))
  | case7 s a b rest hne hb hd =>
    simp only [solve_types hne, hb, hd]
    exact sorts_record_bind (.mismatch _ _) (hsides hc) (.throw (hsides hc))

theorem rowsSorted_start (hs : s.StoresSorted) {a b : Ty} (ha : a.RowsSorted) (hb : b.RowsSorted)
    (f : Fresh) : Config.RowsSorted ⟨s, [.types (s.apply a) (s.apply b)], f⟩ :=
  ⟨hs, forall_mem_singleton.mpr (forall_mem_append.mpr ⟨hs.apply ha, hs.apply hb⟩)⟩

theorem sorts_types (hs : s.StoresSorted) {a b : Ty} (ha : a.RowsSorted) (hb : b.RowsSorted) :
    Sorts Subst.StoresSorted (types s a b) :=
  sorts_solve (rowsSorted_start hs ha hb { supply := .pooled })

theorem sorts_rows (hs : s.StoresSorted) {a b : Row} (ha : a.IsSorted) (hb : b.IsSorted) :
    Sorts Subst.StoresSorted (rows s a b) :=
  sorts_solveRows hs (ha.applyRow s) (hb.applyRow s)

end Unify

/-! ## Inference -/

/-- All rows of an error are sorted. -/
def TypingError.RowsSorted : TypingError → Prop
  | .mismatch a b _ _ _ | .armMismatch a b _ _ => a.RowsSorted ∧ b.RowsSorted
  | .rowMismatch a b _ _ => a.IsSorted ∧ b.IsSorted
  | .occurs _ t _ | .unresolvedTrait _ t _ | .ambiguousTrait _ t _ => t.RowsSorted
  | _ => True

/-- The rows of the type and of the requirements are sorted. -/
structure Scheme.RowsSorted (σ : Scheme) : Prop where
  type : σ.type.RowsSorted
  givens : ∀ g ∈ σ.givens, g.type.RowsSorted

/-- All rows that a state stores are sorted. -/
structure InferState.RowsSorted (st : InferState) : Prop where
  subst : st.subst.StoresSorted
  obligations : ∀ ob ∈ st.obligations, ob.type.RowsSorted
  pending : ∀ cases ∈ st.pending, cases.scrutinee.RowsSorted
  unifier : st.unifier.RowsSorted

namespace Infer

variable {origin : Origin} {s : Subst}

/-- The computation keeps rows sorted. -/
abbrev Sorts {α : Type} (R : α → Prop) (x : InferM α) : Prop :=
  Keeps InferState.RowsSorted R TypingError.RowsSorted x

theorem sorts_freshType : Sorts Ty.RowsSorted freshType := by
  refine Keeps.bind (R := fun _ => True) (.modifyGet fun _ hst => ⟨?_, trivial⟩)
    fun _ _ => .pure (Ty.rowsSorted_var _)
  exact ⟨hst.subst, hst.obligations, hst.pending, hst.unifier⟩

theorem sorts_freshEffectVar : Sorts (fun _ => True) freshEffectVar :=
  .modifyGet fun _ hst => ⟨⟨hst.subst, hst.obligations, hst.pending, hst.unifier⟩, trivial⟩

theorem sorts_freshRow : Sorts Row.IsSorted freshRow :=
  sorts_freshEffectVar.bind fun _ _ => .pure (Row.isSorted_ofVar _)

theorem sorts_runUnify {step : Subst → UnifyM Subst} {explain : Subst → UnifyError → TypingError}
    (hstep : ∀ s, s.StoresSorted → Unify.Sorts Subst.StoresSorted (step s))
    (hexplain : ∀ s e, s.StoresSorted → e.RowsSorted → (explain s e).RowsSorted) :
    Sorts (fun _ => True) (runUnify step explain) := by
  refine Keeps.get_bind fun st hst => ?_
  have hrun := hstep st.subst hst.subst hst.unifier
  rw [EStateM.run]
  split at hrun <;> simp only [*]
  · exact fun _ _ => ⟨⟨hrun.2, hst.obligations, hst.pending, hrun.1⟩, trivial⟩
  · exact fun _ _ => ⟨⟨hst.subst, hst.obligations, hst.pending, hrun.1⟩,
      hexplain _ _ hst.subst hrun.2⟩

theorem sorts_unify {a b : Ty} (ha : a.RowsSorted) (hb : b.RowsSorted) :
    Sorts (fun _ => True) (unify a b origin) := by
  refine sorts_runUnify (fun s hs => Unify.sorts_types hs ha hb) fun s e hs he => ?_
  cases e with
  | occurs => exact he
  | mismatch | rowMismatch => exact ⟨hs.apply ha, hs.apply hb⟩

theorem sorts_unifyRows {a b : Row} (ha : a.IsSorted) (hb : b.IsSorted) :
    Sorts (fun _ => True) (unifyRows a b origin) :=
  sorts_runUnify (fun _ hs => Unify.sorts_rows hs ha hb)
    fun s _ _ _ => ⟨ha.applyRow s, hb.applyRow s⟩

theorem sorts_openRow {r : Row} (hr : r.IsSorted) : Sorts Row.IsSorted (openRow r) := by
  rw [openRow]
  split
  · exact sorts_freshEffectVar.bind fun _ _ => .pure (Row.isSorted_extensible _ _)
  · exact .pure hr

theorem sorts_subeffect {sub sup : Row} (hsub : sub.IsSorted) (hsup : sup.IsSorted) :
    Sorts (fun _ => True) (subeffect sub sup origin) :=
  .get_bind fun st _ => (sorts_openRow (hsub.applyRow st.subst)).bind fun _ => sorts_unifyRows hsup

theorem sorts_subeffects {sup : Row} (hsup : sup.IsSorted) {rows : List Row}
    (hrows : ∀ r ∈ rows, r.IsSorted) :
    Sorts (fun _ => True) (subeffects sup origin rows) := by
  induction rows with
  | nil => exact .pure trivial
  | cons r rows ih =>
    rw [forall_mem_cons] at hrows
    exact (sorts_subeffect hrows.1 hsup).bind fun _ _ => ih hrows.2

theorem sorts_join {rows : List Row} (hrows : ∀ r ∈ rows, r.IsSorted) :
    Sorts Row.IsSorted (join rows origin) := by
  refine Keeps.get_bind fun st hst => ?_
  have hsorted : ∀ r ∈ (rows.map st.subst.applyRow).filter (!·.isPure), r.IsSorted := by
    refine fun r hr => forall_mem_map.mpr (fun r₀ hr₀ => ?_) r (mem_filter.mp hr).1
    exact (hrows r₀ hr₀).applyRow st.subst
  dsimp only
  split
  · exact .pure Row.isSorted_pure
  · rename_i r heq
    exact .pure (hsorted r (heq ▸ .head _))
  · refine sorts_freshRow.bind fun joined hjoined => (sorts_subeffects hjoined hsorted).bind
      fun _ _ => ?_
    exact .get_bind fun st _ => .pure (hjoined.applyRow st.subst)

theorem sorts_renewTypes (hs : s.StoresSorted) (vs : List TypeVar) :
    Sorts Subst.StoresSorted (renewTypes s vs) := by
  induction vs generalizing s with
  | nil => exact .pure hs
  | cons v vs ih => exact sorts_freshType.bind fun _ ht => ih (hs.bindType ht v)

theorem sorts_renewEffects (hs : s.StoresSorted) (es : List EffectVar) :
    Sorts Subst.StoresSorted (renewEffects s es) := by
  induction es generalizing s with
  | nil => exact .pure hs
  | cons e es ih => exact sorts_freshRow.bind fun _ hr => ih (hs.bindEffect hr e)

theorem sorts_constrainGivens (hs : s.StoresSorted) {span : Span} {givens : List Given}
    (h : ∀ g ∈ givens, g.type.RowsSorted) :
    Sorts (fun _ => True) (constrainGivens s span givens) := by
  induction givens with
  | nil => exact .pure trivial
  | cons g gs ih =>
    rw [forall_mem_cons] at h
    refine Keeps.bind (R := fun _ => True)
      (.modifyGet fun st hst => ⟨{ hst with obligations := ?_ }, trivial⟩) fun _ _ => ih h.2
    exact forall_mem_append.mpr ⟨hst.obligations, forall_mem_singleton.mpr (hs.apply h.1)⟩

theorem sorts_instantiate {σ : Scheme} (hσ : σ.RowsSorted) {span : Span} :
    Sorts Ty.RowsSorted (instantiate σ span) := by
  rw [instantiate]
  split
  · exact .pure hσ.type
  refine (sorts_renewTypes Subst.storesSorted_empty _).bind
    fun s hs => (sorts_renewEffects hs _).bind fun s hs =>
    (sorts_constrainGivens hs hσ.givens).bind fun _ _ => ?_
  have htype := hs.apply hσ.type
  split
  · rename_i params result effects heq
    rw [heq] at htype
    -- only the outermost row is replaced
    have heffects := htype effects (Ty.mem_rows_fn.mpr (.inr (.inr rfl)))
    refine (sorts_openRow heffects).bind fun row hrow => .pure fun r hr => ?_
    rcases Ty.mem_rows_fn.mp hr with hr | hr | rfl
    · exact htype r (Ty.mem_rows_fn.mpr (.inl hr))
    · exact htype r (Ty.mem_rows_fn.mpr (.inr (.inl hr)))
    · exact hrow
  · exact .pure htype

end Infer

open Generalize in
theorem rowsSorted_generalize {t : Ty} (ht : t.RowsSorted) {residual : List Obligation}
    (hresidual : ∀ ob ∈ residual, ob.type.RowsSorted) {s : Subst} (hs : s.StoresSorted)
    (fixed : FixedVars) (hints : VarNames) : match generalize t residual s fixed hints with
      | .ok (σ, deferred) => σ.RowsSorted ∧ ∀ ob ∈ deferred, ob.type.RowsSorted
      | .error e => e.RowsSorted := by
  have hobs (tails : List EffectVar) :
      ∀ ob ∈ residual.map fun ob => (ob.apply s).apply (closing tails), ob.type.RowsSorted :=
    forall_mem_map.mpr fun ob hob => rowsSorted_closing (hs.apply (hresidual ob hob))
  simp only [generalize]
  split <;> rename_i heq <;> split at heq <;> cases heq
  · refine ⟨⟨rowsSorted_closing (hs.apply ht), fun g hg => ?_⟩,
      fun ob hob => hobs _ ob (mem_filter.mp hob).1⟩
    obtain ⟨ob, hob, rfl⟩ := mem_map.mp (mem_groupByTrait.mp hg)
    exact hobs _ ob (mem_filter.mp hob).1
  · exact hobs _ _ (mem_of_find?_eq_some ‹_›)

/-- Applying, composing, unifying, joining, instantiating, generalising and resolving produce and
store sorted rows only, if they are given such rows. Labels are looked up in both sides of each
equation between rows that unification comes to, recorded or not, and there a look-up finds exactly
the labels of the row. -/
theorem rows_stay_sorted {s later : Subst} (hs : s.StoresSorted) (hlater : later.StoresSorted)
    {a b : Ty}
    (ha : a.RowsSorted) (hb : b.RowsSorted) {r r' : Row} (hr : r.IsSorted) (hr' : r'.IsSorted)
    {σ : Scheme} (hσ : σ.RowsSorted) {rows : List Row} (hrows : ∀ r ∈ rows, r.IsSorted)
    {residual : List Obligation}
    (hresidual : ∀ ob ∈ residual, ob.type.RowsSorted) (fixed : FixedVars) (hints : VarNames)
    (reg : Registry) (written : TypeExpr) (origin : Origin) (span : Span) :
    (s.apply a).RowsSorted ∧ (s.applyRow r).IsSorted ∧ (s.compose later).StoresSorted ∧
      Unify.Sorts Subst.StoresSorted (Unify.types s a b) ∧
      Unify.Sorts Subst.StoresSorted (Unify.rows s r r') ∧
      Infer.Sorts (fun _ => True) (Infer.unify a b origin) ∧
      Infer.Sorts (fun _ => True) (Infer.unifyRows r r' origin) ∧
      Infer.Sorts (fun _ => True) (Infer.subeffect r r' origin) ∧
        Infer.Sorts Row.IsSorted (Infer.join rows origin) ∧
      Infer.Sorts Ty.RowsSorted (Infer.instantiate σ span) ∧
      (match generalize a residual s fixed hints with
        | .ok (τ, deferred) => τ.RowsSorted ∧ ∀ ob ∈ deferred, ob.type.RowsSorted
        | .error e => e.RowsSorted) ∧
      (∀ q q' t, Resolve.type reg span written q = .ok t q' → t.RowsSorted) ∧
      (∀ u : Unifier, u.RowsSorted → ∀ c d, .rows c d ∈ u.events → ∀ l,
        (c.has l = true ↔ l ∈ c.labels) ∧ (d.has l = true ↔ l ∈ d.labels)) ∧
      (∀ f f' s' c d rest, Unify.Steps ⟨s, [.types (s.apply a) (s.apply b)], f⟩
          ⟨s', .rows c d :: rest, f'⟩ → ∀ l,
        (c.has l = true ↔ l ∈ c.labels) ∧ (d.has l = true ↔ l ∈ d.labels)) ∧
      ∀ l, ((s.applyRow r).has l = true ↔ l ∈ (s.applyRow r).labels) ∧
        ((s.applyRow r').has l = true ↔ l ∈ (s.applyRow r').labels) := by
  refine ⟨hs.apply ha, hr.applyRow s, hs.compose hlater, Unify.sorts_types hs ha hb,
    Unify.sorts_rows hs hr hr', Infer.sorts_unify ha hb, Infer.sorts_unifyRows hr hr',
    Infer.sorts_subeffect hr hr', Infer.sorts_join hrows, Infer.sorts_instantiate hσ,
    rowsSorted_generalize ha hresidual hs fixed hints,
    fun _ _ _ h => (Resolve.type_ok written h).1.sorted, fun u hu c d hevent l => ?_,
    fun f f' s' c d rest hsteps l => ?_, fun l => ?_⟩
  · exact ⟨Row.has_eq_true_iff (hu _ hevent).1, Row.has_eq_true_iff (hu _ hevent).2⟩
  · have heq := (hsteps.rowsSorted (Unify.rowsSorted_start hs ha hb f)).eqs _ (.head _)
    exact ⟨Row.has_eq_true_iff (heq c (.head _)), Row.has_eq_true_iff (heq d (.tail _ (.head _)))⟩
  · exact ⟨Row.has_eq_true_iff (hr.applyRow s), Row.has_eq_true_iff (hr'.applyRow s)⟩

/-- Two rows with labels the other one lacks meet in a fresh tail. -/
theorem rows_stay_sorted_meeting :
    let start : Unifier := { fresh := { supply := .standalone 0 2 }, isTracing := true }
    ∃ s u, Unify.rows .empty (.extensible ["State", "IO"] ⟨0⟩) (.extensible ["Net"] ⟨1⟩) start =
      .ok s u ∧ s.StoresSorted ∧ u.RowsSorted := by
  intro start
  have hok : ((Unify.rows .empty (.extensible ["State", "IO"] ⟨0⟩)
      (.extensible ["Net"] ⟨1⟩)).run' start).isSome := by
    decide +kernel
  obtain ⟨s, u, hok⟩ := exists_eq_ok hok
  have hvar := Ty.rowsSorted_var ⟨0⟩
  have hkeeps := (rows_stay_sorted Subst.storesSorted_empty Subst.storesSorted_empty hvar hvar
    (Row.isSorted_extensible ["State", "IO"] ⟨0⟩) (Row.isSorted_extensible ["Net"] ⟨1⟩)
      (σ := .mono (.var ⟨0⟩))
    ⟨hvar, forall_mem_nil _⟩ (forall_mem_nil _) (forall_mem_nil _) {} {} {} (.tuple []) default
    default).2.2.2.2.1
  have hstart := @hkeeps start fun _ hevent => absurd hevent (Array.not_mem_empty _)
  rw [hok] at hstart
  exact ⟨s, u, hok, hstart.2, hstart.1⟩

end RowTyping
