import RowTyping.Proofs.Substitution
import RowTyping.Proofs.Upcoming
import RowTyping.Unify.Solve

/-!
# Unification as a transition system

A configuration holds the bindings found so far, the equations that remain and the supply of fresh
tails. `Unify.Step` lists what can happen to a configuration and `Equation.Clash` the equations on
which unification fails. `Unify.solve` follows the steps to a configuration without equations, or to
one whose first equation is a clash (`Unify.solve_outcome`). What unification preserves, and which
solutions it keeps, is proved about single steps.
-/

namespace RowTyping

open List

/-! ## Equations under a valuation -/

namespace Equation

/-- The equation with all variables replaced by what they stand for. -/
def under (eq : Equation) (V : Valuation) : Equation :=
  eq.subst V.types V.effects

/-- Both sides stand for the same type or row. -/
def Holds (V : Valuation) : Equation → Prop
  | .types a b => a.under V = b.under V
  | .rows a b => a.under V = b.under V

/-- The variables of both sides. -/
def occurrences : Equation → List Var
  | .types a b => a.occurrences ++ b.occurrences
  | .rows a b => (a.tail.map Var.effect).toList ++ (b.tail.map Var.effect).toList

/-- The rows of both sides. -/
def rowsOf : Equation → List Row
  | .types a b => a.rows ++ b.rows
  | .rows a b => [a, b]

/-- All rows of the equation are sorted. -/
def RowsSorted (eq : Equation) : Prop :=
  ∀ r ∈ eq.rowsOf, r.IsSorted

variable {V W : Valuation} {eq : Equation} {r : Row}

theorem holds_under : (eq.under V).Holds W ↔ eq.Holds (V.andThen W) := by
  cases eq with
  | types a b =>
    change (a.under V).under W = (b.under V).under W ↔ _
    rw [← Ty.under_andThen, ← Ty.under_andThen]
    rfl
  | rows a b =>
    change (a.under V).under W = (b.under V).under W ↔ _
    rw [← Row.under_andThen, ← Row.under_andThen]
    rfl

private theorem mem_tail_under {x : Var} :
    x ∈ ((r.under V).tail.map Var.effect).toList ↔
      ∃ y ∈ (r.tail.map Var.effect).toList, x ∈ V.image y := by
  rw [Row.tail_under]
  rcases r.tail with _ | e <;> simp [Valuation.image]

/-- The variables of an equation under a valuation are those of what its variables stand for. -/
theorem mem_occurrences_under {x : Var} :
    x ∈ (eq.under V).occurrences ↔ ∃ y ∈ eq.occurrences, x ∈ V.image y := by
  cases eq with
  | types a b =>
    change x ∈ (a.under V).occurrences ++ (b.under V).occurrences ↔ _
    simp only [occurrences, mem_append, Ty.mem_occurrences_under, or_and_right, exists_or]
  | rows a b =>
    change x ∈ ((a.under V).tail.map Var.effect).toList ++
      ((b.under V).tail.map Var.effect).toList ↔ _
    simp only [occurrences, mem_append, mem_tail_under, or_and_right, exists_or]

/-- The rows of an equation under a valuation are its own rows under the valuation and the rows of
what its type variables stand for. -/
theorem mem_rowsOf_under :
    r ∈ (eq.under V).rowsOf ↔
      (∃ r₀ ∈ eq.rowsOf, r = r₀.under V) ∨
        ∃ v, .type v ∈ eq.occurrences ∧ r ∈ (V.types v).rows := by
  cases eq with
  | types a b =>
    change r ∈ (a.under V).rows ++ (b.under V).rows ↔ _
    simp only [rowsOf, occurrences, mem_append, Ty.mem_rows_under, or_and_right, exists_or]
    exact or_or_or_comm
  | rows a b =>
    change r ∈ [a.under V, b.under V] ↔ _
    rcases ha : a.tail with _ | e <;> rcases hb : b.tail with _ | f <;>
      simp [rowsOf, occurrences, ha, hb]

/-- The tail of every row of an equation is a variable of the equation. -/
theorem tail_mem_occurrences {e : EffectVar} (hr : r ∈ eq.rowsOf) (he : r.tail = some e) :
    .effect e ∈ eq.occurrences := by
  cases eq with
  | types a b =>
    exact mem_append.mpr ((mem_append.mp hr).imp (Ty.tail_mem_occurrences · he)
      (Ty.tail_mem_occurrences · he))
  | rows a b =>
    rcases mem_pair.mp hr with rfl | rfl <;> simp [occurrences, he]

/-- An equation with sorted rows depends only on the types and rows its variables stand for. -/
theorem RowsSorted.holds_congr (heq : eq.RowsSorted)
    (h : ∀ x ∈ eq.occurrences, V.SameAt W x) : eq.Holds V ↔ eq.Holds W := by
  cases eq with
  | types a b =>
    have ha : a.under V = a.under W := by
      refine Ty.RowsSorted.under_congr (fun r hr => heq r (mem_append_left _ hr)) fun x hx => ?_
      exact h x (mem_append_left _ hx)
    have hb : b.under V = b.under W := by
      refine Ty.RowsSorted.under_congr (fun r hr => heq r (mem_append_right _ hr)) fun x hx => ?_
      exact h x (mem_append_right _ hx)
    rw [Holds, Holds, ha, hb]
  | rows a b =>
    have ha : a.under V = a.under W := by
      refine (heq a (by simp [rowsOf])).under_congr fun e he => h (.effect e) ?_
      simp [occurrences, he]
    have hb : b.under V = b.under W := by
      refine (heq b (by simp [rowsOf])).under_congr fun e he => h (.effect e) ?_
      simp [occurrences, he]
    rw [Holds, Holds, ha, hb]

theorem RowsSorted.under (heq : eq.RowsSorted)
    (hV : ∀ v, .type v ∈ eq.occurrences → (V.types v).RowsSorted) : (eq.under V).RowsSorted := by
  intro r hr
  rcases mem_rowsOf_under.mp hr with ⟨r₀, hr₀, rfl⟩ | ⟨v, hv, hr⟩
  · exact (heq r₀ hr₀).under V
  · exact hV v hv r hr

end Equation

/-! ## Taking types apart -/

/-- Every variable and every row of the first type is one of the second. -/
structure Ty.Within (t u : Ty) : Prop where
  occurrences : ∀ {x}, x ∈ t.occurrences → x ∈ u.occurrences
  rows : ∀ {r}, r ∈ t.rows → r ∈ u.rows

namespace Ty.Within

variable {t p : Ty} {ts : List Ty}

theorem of_named {name : String} (h : t ∈ ts) : t.Within (.named name ts) :=
  ⟨fun hx => mem_occurrences_named.mpr ⟨t, h, hx⟩, fun hr => mem_rows_named.mpr ⟨t, h, hr⟩⟩

theorem of_tuple (h : t ∈ ts) : t.Within (.tuple ts) :=
  ⟨fun hx => mem_occurrences_tuple.mpr ⟨t, h, hx⟩, fun hr => mem_rows_tuple.mpr ⟨t, h, hr⟩⟩

theorem of_param {r : Row} (h : t ∈ ts) : t.Within (.fn ts p r) :=
  ⟨fun hx => mem_occurrences_fn.mpr (.inl ⟨t, h, hx⟩),
    fun hr => mem_rows_fn.mpr (.inl ⟨t, h, hr⟩)⟩

theorem of_result {r : Row} : p.Within (.fn ts p r) :=
  ⟨fun hx => mem_occurrences_fn.mpr (.inr (.inl hx)),
    fun hr => mem_rows_fn.mpr (.inr (.inl hr))⟩

end Ty.Within

namespace Ty.Splits

variable {t x : Ty} {args : List Ty}

/-- A split type is the application of its parts under every valuation. -/
theorem under_eq (h : t.Splits x args) (V : Valuation) :
    t.under V = (x.under V).applyTo (args.map (·.under V)) := by
  cases h with
  | app head before =>
    rw [under_app, under_applyTo, applyTo_applyTo, map_append]
  | named name before =>
    rw [under_named, under_named, map_append]
    -- applying to no arguments leaves a type as it is, so the two cases compute differently
    rcases args with _ | ⟨a, args⟩
    · simp
    · rfl

theorem mem_rows (h : t.Splits x args) {r : Row} :
    r ∈ t.rows ↔ r ∈ x.rows ∨ ∃ a ∈ args, r ∈ a.rows := by
  cases h with
  | app head before =>
    simp only [mem_rows_app, mem_rows_applyTo, mem_append, or_and_right, exists_or, or_assoc]
  | named name before =>
    simp only [mem_rows_named, mem_append, or_and_right, exists_or]

theorem within_head (h : t.Splits x args) : x.Within t :=
  ⟨fun hy => h.mem_occurrences.mpr (.inl hy), fun hr => h.mem_rows.mpr (.inl hr)⟩

theorem within_arg (h : t.Splits x args) {a : Ty} (ha : a ∈ args) : a.Within t :=
  ⟨fun hy => h.mem_occurrences.mpr (.inr (mem_occurrencesAll.mpr ⟨a, ha, hy⟩)),
    fun hr => h.mem_rows.mpr (.inr ⟨a, ha, hr⟩)⟩

end Ty.Splits

namespace Equation

/-! ### Equations between the members of two lists -/

section Zip

variable {as bs : List Ty}

theorem mem_zip {eq : Equation} (h : eq ∈ zip as bs) :
    ∃ a ∈ as, ∃ b ∈ bs, eq = .types a b := by
  rw [zip, ← map_uncurry_zip_eq_zipWith] at h
  obtain ⟨⟨a, b⟩, hab, rfl⟩ := mem_map.mp h
  exact ⟨a, (of_mem_zip hab).1, b, (of_mem_zip hab).2, rfl⟩

/-- Lists of one length stand for the same types exactly when their members do. -/
theorem holds_zip (V : Valuation) (h : as.length = bs.length) :
    (∀ eq ∈ zip as bs, eq.Holds V) ↔ as.map (·.under V) = bs.map (·.under V) := by
  induction as generalizing bs with
  | nil => simp [zip, length_eq_zero_iff.mp h.symm]
  | cons a as ih =>
    obtain ⟨b, bs, rfl⟩ := exists_cons_of_length_eq_add_one h.symm
    have hih := ih (Nat.succ.inj h)
    rw [map_cons, map_cons, List.cons.injEq, ← hih]
    simp [zip, Holds]

end Zip

namespace Decomposes

variable {a b : Ty} {parts : List Equation} {eq : Equation}

/-- Each side of a part lies within the same side of the equation. -/
theorem sides (h : Decomposes a b parts) (heq : eq ∈ parts) :
    (∃ x y, eq = .types x y ∧ x.Within a ∧ y.Within b) ∨
      ∃ r r', eq = .rows r r' ∧ r ∈ a.rows ∧ r' ∈ b.rows := by
  cases h with
  | named =>
    obtain ⟨x, hx, y, hy, rfl⟩ := mem_zip heq
    exact .inl ⟨x, y, rfl, .of_named hx, .of_named hy⟩
  | heads hsa hsb =>
    rcases mem_cons.mp heq with rfl | heq
    · exact .inl ⟨_, _, rfl, hsa.within_head, hsb.within_head⟩
    · obtain ⟨x, hx, y, hy, rfl⟩ := mem_zip heq
      exact .inl ⟨x, y, rfl, hsa.within_arg hx, hsb.within_arg hy⟩
  | @fn ps qs p q r r' =>
    rcases mem_append.mp heq with heq | heq
    · obtain ⟨x, hx, y, hy, rfl⟩ := mem_zip heq
      exact .inl ⟨x, y, rfl, .of_param hx, .of_param hy⟩
    · rcases mem_pair.mp heq with rfl | rfl
      · exact .inl ⟨p, q, rfl, .of_result, .of_result⟩
      · exact .inr ⟨r, r', rfl, Ty.mem_rows_fn.mpr (.inr (.inr rfl)),
          Ty.mem_rows_fn.mpr (.inr (.inr rfl))⟩
  | tuple =>
    obtain ⟨x, hx, y, hy, rfl⟩ := mem_zip heq
    exact .inl ⟨x, y, rfl, .of_tuple hx, .of_tuple hy⟩

/-- The parts of an equation have only variables of the equation. -/
theorem mem_occurrences (h : Decomposes a b parts) (heq : eq ∈ parts) {x : Var}
    (hx : x ∈ eq.occurrences) :
    x ∈ (Equation.types a b).occurrences := by
  rw [occurrences, mem_append]
  rcases h.sides heq with ⟨t, u, rfl, ht, hu⟩ | ⟨r, r', rfl, hr, hr'⟩
  · exact (mem_append.mp hx).imp ht.occurrences hu.occurrences
  · refine (mem_append.mp hx).imp (fun hx => ?_) fun hx => ?_
    · obtain ⟨e, he, rfl⟩ := by simpa using hx
      exact Ty.tail_mem_occurrences hr he
    · obtain ⟨e, he, rfl⟩ := by simpa using hx
      exact Ty.tail_mem_occurrences hr' he

/-- The parts of an equation have only rows of the equation. -/
theorem mem_rowsOf (h : Decomposes a b parts) (heq : eq ∈ parts) {r : Row} (hr : r ∈ eq.rowsOf) :
    r ∈ (Equation.types a b).rowsOf := by
  rw [rowsOf, mem_append]
  rcases h.sides heq with ⟨t, u, rfl, ht, hu⟩ | ⟨_, _, rfl, hr₁, hr₂⟩
  · exact (mem_append.mp hr).imp ht.rows hu.rows
  · rcases mem_pair.mp hr with rfl | rfl
    · exact .inl hr₁
    · exact .inr hr₂

/-- Types whose parts stand for the same stand for the same. -/
theorem holds (h : Decomposes a b parts) {V : Valuation} (hparts : ∀ eq ∈ parts, eq.Holds V) :
    a.under V = b.under V := by
  cases h with
  | named hlen =>
    rw [Ty.under_named, Ty.under_named, (holds_zip V hlen).mp hparts]
  | heads hsa hsb hlen =>
    obtain ⟨hhead, hargs⟩ := forall_mem_cons.mp hparts
    have hheads : Ty.under _ V = Ty.under _ V := hhead
    rw [hsa.under_eq, hsb.under_eq, (holds_zip V hlen).mp hargs, hheads]
  | fn hlen =>
    obtain ⟨hparams, hrest⟩ := forall_mem_append.mp hparts
    have hresult : Ty.under _ V = Ty.under _ V := hrest _ (mem_pair.mpr (.inl rfl))
    have hrow : Row.under _ V = Row.under _ V := hrest _ (mem_pair.mpr (.inr rfl))
    rw [Ty.under_fn, Ty.under_fn, (holds_zip V hlen).mp hparams, hresult, hrow]
  | tuple hlen =>
    rw [Ty.under_tuple, Ty.under_tuple, (holds_zip V hlen).mp hparts]

end Decomposes

end Equation

/-! ## Configurations and steps -/

namespace Unify

/-- The state of unification between two equations. -/
structure Config where
  /-- The bindings found so far. -/
  subst : Subst
  /-- The equations that remain, resolved by the bindings. -/
  eqs : List Equation
  /-- The supply of fresh tails. -/
  fresh : Fresh

/-- How an equation between rows changes the bindings and the supply. -/
inductive RowStep : Row → Row → Subst → Fresh → Subst → Fresh → Prop
  | refl {a : Row} {s : Subst} {f : Fresh} : RowStep a a s f s f
  | closed {a b : Row} {s : Subst} {f : Fresh} (ha : a.tail = none) (hb : b.tail = none)
    (hab : a.labelsNotIn b = []) (hba : b.labelsNotIn a = []) : RowStep a b s f s f
  | close {a b : Row} {s : Subst} {f : Fresh} {r : EffectVar} (ha : a.tail = some r)
    (hb : b.tail = none) (hab : a.labelsNotIn b = []) :
    RowStep a b s f (s.bindEffect r (.closed (b.labelsNotIn a))) f
  | join {a b : Row} {s : Subst} {f : Fresh} {r r' : EffectVar} (ha : a.tail = some r)
    (hb : b.tail = some r') (hne : r ≠ r') (hab : a.labelsNotIn b = [])
    (hba : b.labelsNotIn a = []) : RowStep a b s f (s.bindEffect r (.ofVar r')) f
  | share {a b : Row} {s : Subst} {f : Fresh} {r r' : EffectVar} (ha : a.tail = some r)
    (hb : b.tail = some r') (hne : r ≠ r') :
    RowStep a b s f
      ((s.bindEffect r (.extensible (b.labelsNotIn a) f.effectVar.1)).bindEffect r'
        (.extensible (a.labelsNotIn b) f.effectVar.1)) f.effectVar.2
  | symm {a b : Row} {s s' : Subst} {f f' : Fresh} (h : RowStep b a s f s' f') :
    RowStep a b s f s' f'

/-- One equation is solved, binds a variable or is taken apart. -/
inductive Step : Config → Config → Prop
  | rows {a b : Row} {s s' : Subst} {f f' : Fresh} {rest : List Equation}
    (h : RowStep a b s f s' f') :
    Step ⟨s, .rows a b :: rest, f⟩ ⟨s', Equation.resolveAllRows s' rest, f'⟩
  | identical {a : Ty} {s : Subst} {f : Fresh} {rest : List Equation} :
    Step ⟨s, .types a a :: rest, f⟩ ⟨s, rest, f⟩
  | bind {a b t : Ty} {v : TypeVar} {s : Subst} {f : Fresh} {rest : List Equation}
    (hab : a = .var v ∧ b = t ∨ a = t ∧ b = .var v) (hv : v ∉ t.typeOccurrences) :
    Step ⟨s, .types a b :: rest, f⟩ ⟨s.bindType v t, Equation.replaceAll v t rest, f⟩
  | decompose {a b : Ty} {s : Subst} {f : Fresh} {parts rest : List Equation}
    (h : Equation.Decomposes a b parts) :
    Step ⟨s, .types a b :: rest, f⟩ ⟨s, parts ++ rest, f⟩

/-- Any number of steps. -/
abbrev Steps : Config → Config → Prop :=
  Relation.ReflTransGen Step

end Unify

/-- No step solves the equation. -/
inductive Equation.Clash : Equation → Prop
  | occurs {a b t : Ty} {v : TypeVar} (hab : a = .var v ∧ b = t ∨ a = t ∧ b = .var v)
    (hne : t ≠ .var v) (hv : v ∈ t.typeOccurrences) : Clash (.types a b)
  | shapes {a b : Ty} (hne : a ≠ b) (hbind : Unify.binding? a b = none)
    (hparts : decompose? a b = none) : Clash (.types a b)
  | closedRowLacks {a b : Row} (hb : b.tail = none) (hab : a.labelsNotIn b ≠ []) :
    Clash (.rows a b)
  | sharedTail {a b : Row} {r : EffectVar} (hne : a ≠ b) (ha : a.tail = some r)
    (hb : b.tail = some r) : Clash (.rows a b)
  | symm {a b : Row} (h : Clash (.rows b a)) : Clash (.rows a b)

namespace Unify

variable {s : Subst}

theorem RowStep.noted {a b : Row} {s' : Subst} {f : Fresh} {u : Unifier} (event : UnifyEvent)
    (h : RowStep a b s f s' u.fresh) : RowStep a b s f s' (u.note event).fresh :=
  (u.fresh_note event).symm ▸ h

/-- Rows are solved by a step or clash. -/
theorem solveRows_outcome (s : Subst) (a b : Row) (u : Unifier) :
    (∃ s' u', solveRows s a b u = .ok s' u' ∧ RowStep a b s u.fresh s' u'.fresh) ∨
      (Equation.rows a b).Clash ∧ ∃ err u', solveRows s a b u = .error err u' := by
  by_cases hne : a = b
  · subst hne
    exact .inl ⟨s, u, by rw [solveRows, if_pos rfl]; rfl, .refl⟩
  unfold solveRows
  rw [if_neg hne]
  -- recording the rows leaves the supply as it is
  have hfresh := u.fresh_note (.rows a b)
  change (∃ s' u', (_ : UnifyM Subst) (u.note (.rows a b)) = .ok s' u' ∧ _) ∨
    _ ∧ ∃ err u', (_ : UnifyM Subst) (u.note (.rows a b)) = .error err u'
  generalize u.note (.rows a b) = u₁ at hfresh
  rcases ha : a.tail with _ | r <;> rcases hb : b.tail with _ | r' <;> simp only
  -- both closed: each has to have the labels of the other
  · by_cases hlabels : (a.labelsNotIn b).isEmpty && (b.labelsNotIn a).isEmpty
    · rw [if_pos hlabels]
      obtain ⟨hab, hba⟩ := by simpa using hlabels
      exact .inl ⟨_, _, rfl, hfresh ▸ .closed ha hb hab hba⟩
    · rw [if_neg hlabels]
      refine .inr ⟨?_, _, _, rfl⟩
      by_cases hab : a.labelsNotIn b = []
      · exact .symm (.closedRowLacks ha fun hba => hlabels (by simp [hab, hba]))
      · exact .closedRowLacks hb hab
  -- one closed: the other may not have more labels, and its tail takes those it lacks
  · by_cases hba : (b.labelsNotIn a).isEmpty
    · rw [if_pos hba]
      exact .inl ⟨_, _, rfl, .noted _ (hfresh ▸ .symm (.close hb ha (isEmpty_iff.mp hba)))⟩
    · rw [if_neg hba]
      exact .inr ⟨.symm (.closedRowLacks ha (mt isEmpty_iff.mpr hba)), _, _, rfl⟩
  · by_cases hab : (a.labelsNotIn b).isEmpty
    · rw [if_pos hab]
      exact .inl ⟨_, _, rfl, .noted _ (hfresh ▸ .close ha hb (isEmpty_iff.mp hab))⟩
    · rw [if_neg hab]
      exact .inr ⟨.closedRowLacks hb (mt isEmpty_iff.mpr hab), _, _, rfl⟩
  -- both open: different tails can always be joined, one tail cannot take different labels
  · by_cases hrr : r = r'
    · rw [if_pos hrr]
      exact .inr ⟨.sharedTail hne ha (hrr ▸ hb), _, _, rfl⟩
    · rw [if_neg hrr]
      by_cases hlabels : (a.labelsNotIn b).isEmpty && (b.labelsNotIn a).isEmpty
      · rw [if_pos hlabels]
        obtain ⟨hab, hba⟩ := by simpa using hlabels
        exact .inl ⟨_, _, rfl, .noted _ (hfresh ▸ .join ha hb hrr hab hba)⟩
      · rw [if_neg hlabels]
        exact .inl ⟨_, _, rfl, .noted _ (hfresh ▸ .share ha hb hrr)⟩

/-- How solving ends: without equations, or at one that no step solves. -/
def Outcome (c : Config) (result : EStateM.Result UnifyError Unifier Subst) : Prop :=
  ∃ c', Steps c c' ∧
    ((c'.eqs = [] ∧ ∃ u, result = .ok c'.subst u ∧ u.fresh = c'.fresh) ∨
      (∃ eq ∈ c'.eqs, eq.Clash) ∧ ∃ err u, result = .error err u)

theorem Outcome.head {c c' : Config} {result : EStateM.Result UnifyError Unifier Subst}
    (hstep : Step c c') (h : Outcome c' result) : Outcome c result := by
  obtain ⟨c'', hsteps, hend⟩ := h
  exact ⟨c'', .head hstep hsteps, hend⟩

/-- Recording an event leaves what is to be solved as it is. -/
theorem outcome_record (event : UnifyEvent) {eqs : List Equation} {x : UnifyM Subst}
    (h : ∀ u, Outcome ⟨s, eqs, u.fresh⟩ (x u)) (u : Unifier) :
    Outcome ⟨s, eqs, u.fresh⟩ ((record event >>= fun _ => x) u) :=
  u.fresh_note event ▸ h (u.note event)

/-- What solving does with two different types. -/
theorem solve_types {a b : Ty} {rest : List Equation} (hne : a ≠ b) :
    solve s (.types a b :: rest) =
      (match binding? a b with
      | some (v, t) =>
        if v ∈ t.typeOccurrences then do
          record (.occursCheck v t)
          throw (.occurs v t)
        else do
          record (.bind v t)
          solve (s.bindType v t) (Equation.replaceAll v t rest)
      | none =>
        match Equation.decompose? a b with
        | some (shape, parts) => do
          record (.decompose shape a b)
          solve s (parts ++ rest)
        | none => do
          record (.mismatch a b)
          throw (.mismatch a b)) := by
  rw [solve, if_neg hne]
  -- the unfolded definition carries proofs for its termination in the matches
  generalize binding? a b = binding
  generalize Equation.decompose? a b = parts
  rcases binding with _ | ⟨v, t⟩ <;> rcases parts with _ | ⟨shape, parts⟩ <;> rfl

/-- Solving follows the steps from its equations to the end. -/
theorem solve_outcome (s : Subst) (eqs : List Equation) (u : Unifier) :
    Outcome ⟨s, eqs, u.fresh⟩ (solve s eqs u) := by
  induction s, eqs using solve.induct generalizing u with
  | case1 s =>
    rw [solve]
    exact ⟨_, .refl, .inl ⟨rfl, u, rfl, rfl⟩⟩
  | case2 s a b rest ih =>
    rw [solve]
    change Outcome _ (EStateM.bind _ _ u)
    rcases solveRows_outcome s a b u with ⟨s', u', hok, hstep⟩ | ⟨hclash, err, u', herr⟩
    · rw [EStateM.bind, hok]
      exact .head (.rows hstep) (ih s' u')
    · rw [EStateM.bind, herr]
      exact ⟨_, .refl, .inr ⟨⟨_, .head _, hclash⟩, err, u', rfl⟩⟩
  | case3 s a rest ih =>
    rw [solve, if_pos rfl]
    exact .head .identical (outcome_record _ ih u)
  | case4 s a b rest hne v t hb hv =>
    -- the variable itself is no clash, but that equation has been dropped as identical
    have hsides := binding?_eq_some hb
    simp only [solve_types hne, hb, if_pos hv]
    refine ⟨_, .refl, .inr ⟨⟨_, .head _, .occurs hsides ?_ hv⟩, _, _, rfl⟩⟩
    rintro rfl
    rcases hsides with ⟨rfl, rfl⟩ | ⟨rfl, rfl⟩ <;> exact hne rfl
  | case5 s a b rest hne v t hb hv ih =>
    simp only [solve_types hne, hb, if_neg hv]
    exact .head (.bind (binding?_eq_some hb) hv) (outcome_record _ ih u)
  | case6 s a b rest hne hb shape parts hd ih =>
    simp only [solve_types hne, hb, hd]
    exact .head (.decompose (Equation.decomposes_of_eq_some hd)) (outcome_record _ ih u)
  | case7 s a b rest hne hb hd =>
    simp only [solve_types hne, hb, hd]
    exact ⟨_, .refl, .inr ⟨⟨_, .head _, .shapes hne hb hd⟩, _, _, rfl⟩⟩

end Unify

end RowTyping
