import RowTyping.Proofs.SortedList
import RowTyping.Types.Measure

/-!
# Types and rows under a valuation

A valuation says what every variable stands for. `Ty.under` and `Row.under` replace all variables at
once; doing so twice is doing so with `Valuation.andThen` (`Ty.under_andThen`), the variables of the
result are the variables the old ones stand for (`Ty.mem_occurrences_under`), and only the variables
that occur matter (`Ty.under_congr`). A substitution acts by such a valuation.
-/

namespace RowTyping

open List

/-- What the variables stand for. An effect variable without a row stands for itself. -/
structure Valuation where
  /-- The type that a type variable stands for. -/
  types : TypeVar → Ty
  /-- The row that an effect variable stands for. -/
  effects : EffectVar → Option Row

/-- The row with its tail replaced by what it stands for. -/
def Row.under (r : Row) (V : Valuation) : Row :=
  r.subst V.effects

/-- The type with all variables replaced by what they stand for. -/
def Ty.under (t : Ty) (V : Valuation) : Ty :=
  t.subst V.types V.effects

namespace Valuation

/-- Every variable stands for itself. -/
def self : Valuation := ⟨.var, fun _ => none⟩

/-- Replace variables by `V`, and those of the result by `W`. -/
def andThen (V W : Valuation) : Valuation where
  types v := (V.types v).under W
  effects e :=
    match V.effects e with
    | none => W.effects e
    | some r => some (r.under W)

/-- The row that an effect variable stands for, which may be the variable alone. -/
def row (V : Valuation) (e : EffectVar) : Row :=
  (Row.ofVar e).under V

/-- The variables of what a variable stands for. -/
def image (V : Valuation) : Var → List Var
  | .type v => (V.types v).occurrences
  | .effect e => ((V.row e).tail.map Var.effect).toList

/-- Two valuations give a variable the same meaning. -/
def AgreesAt (V W : Valuation) : Var → Prop
  | .type v => V.types v = W.types v
  | .effect e => V.effects e = W.effects e

theorem AgreesAt.refl (V : Valuation) (x : Var) : V.AgreesAt V x := by
  cases x <;> rfl

variable {V W : Valuation} {x : Var}

theorem AgreesAt.symm (h : V.AgreesAt W x) : W.AgreesAt V x := by
  cases x <;> exact Eq.symm h

theorem AgreesAt.trans {U : Valuation} (h : U.AgreesAt V x) (h' : V.AgreesAt W x) :
    U.AgreesAt W x := by
  cases x <;> exact Eq.trans h h'

/-- Valuations that agree everywhere are equal. -/
theorem eq_of_agreesAt (h : ∀ x, V.AgreesAt W x) : V = W := by
  obtain ⟨σ, ρ⟩ := V
  obtain ⟨σ', ρ'⟩ := W
  obtain rfl : σ = σ' := funext fun v => h (.type v)
  obtain rfl : ρ = ρ' := funext fun e => h (.effect e)
  rfl

/-- Two valuations let a variable stand for the same type or the same row. -/
def SameAt (V W : Valuation) : Var → Prop
  | .type v => V.types v = W.types v
  | .effect e => V.row e = W.row e

theorem AgreesAt.sameAt (h : V.AgreesAt W x) : V.SameAt W x := by
  cases x with
  | type v => exact h
  | effect e =>
    have he : V.effects e = W.effects e := h
    simp only [SameAt, row, Row.under, Row.subst, Row.ofVar, he]

end Valuation

/-! ## Rows -/

namespace Row

/-- The labels are in strictly increasing order. -/
def IsSorted (r : Row) : Prop :=
  Sorted.IsSorted r.labels

/-- Every effect of the first row is allowed by the second: its labels are listed there, and if it
is open, the second row has the same tail. -/
instance : LE Row where
  le r r' := (∀ l ∈ r.labels, l ∈ r'.labels) ∧ (r.tail = none ∨ r.tail = r'.tail)

@[refl]
theorem le_refl (r : Row) : r ≤ r :=
  ⟨fun _ h => h, .inr rfl⟩

/-- A pure row is allowed by every row. -/
theorem pure_le (r : Row) : pure ≤ r :=
  ⟨fun _ h => (not_mem_nil h).elim, .inl rfl⟩

variable {r : Row} {l : String} {e : EffectVar}

/-- Sorted rows are determined by their label sets and tails. -/
theorem eq_of_isSorted {r' : Row} (h : r.IsSorted) (h' : r'.IsSorted)
    (hlabels : ∀ l, l ∈ r.labels ↔ l ∈ r'.labels) (htail : r.tail = r'.tail) : r = r' := by
  obtain ⟨labels, tail⟩ := r
  obtain ⟨labels', tail'⟩ := r'
  obtain rfl : labels = labels' := Sorted.IsSorted.eq_of_mem_iff h h' hlabels
  obtain rfl : tail = tail' := htail
  rfl

@[simp]
theorem isSorted_pure : pure.IsSorted := List.Pairwise.nil

@[simp]
theorem isSorted_ofVar (e : EffectVar) : (ofVar e).IsSorted := List.Pairwise.nil

theorem isSorted_closed (labels : List String) : (closed labels).IsSorted :=
  Sorted.isSorted_ofList labels

theorem isSorted_extensible (labels : List String) (e : EffectVar) :
    (extensible labels e).IsSorted :=
  Sorted.isSorted_ofList labels

/-- In a sorted row the search for a label finds exactly the labels. -/
theorem has_eq_true_iff (h : r.IsSorted) : r.has l = true ↔ l ∈ r.labels :=
  Sorted.search_eq_true_iff h

/-- The labels of a row that a sorted row does not list. -/
theorem mem_labelsNotIn {other : Row} (h : other.IsSorted) :
    l ∈ r.labelsNotIn other ↔ l ∈ r.labels ∧ l ∉ other.labels := by
  rw [labelsNotIn, mem_filter, Bool.not_eq_true', ← Bool.not_eq_true, has_eq_true_iff h]

theorem labelsNotIn_eq_nil {other : Row} (h : other.IsSorted) :
    r.labelsNotIn other = [] ↔ ∀ l ∈ r.labels, l ∈ other.labels := by
  rw [eq_nil_iff_forall_not_mem]
  refine forall_congr' fun l => ?_
  rw [mem_labelsNotIn h, not_and, not_not]

@[simp]
theorem mem_labels_closed {labels : List String} : l ∈ (closed labels).labels ↔ l ∈ labels :=
  Sorted.mem_ofList

@[simp]
theorem mem_labels_extensible {labels : List String} :
    l ∈ (extensible labels e).labels ↔ l ∈ labels :=
  Sorted.mem_ofList

variable {V W : Valuation}

theorem under_of_tail_none (h : r.tail = none) : r.under V = r := by
  rw [under, subst, h]

@[simp]
theorem under_self (r : Row) : r.under .self = r := by
  rw [under, subst]
  split <;> rfl

@[simp]
theorem under_pure : pure.under V = pure := rfl

@[simp]
theorem under_closed (labels : List String) : (closed labels).under V = closed labels := rfl

/-- A row under a valuation has its own labels and those its tail stands for. -/
theorem mem_labels_under :
    l ∈ (r.under V).labels ↔ l ∈ r.labels ∨ ∃ e, r.tail = some e ∧ l ∈ (V.row e).labels := by
  obtain ⟨labels, _ | e⟩ := r
  · simp [under, subst]
  · rcases he : V.effects e with _ | rest <;>
      simp [under, subst, Valuation.row, ofVar, he]

/-- The tail of a row under a valuation is the tail of what its tail stands for. -/
theorem tail_under : (r.under V).tail = r.tail.bind fun e => (V.row e).tail := by
  obtain ⟨labels, _ | e⟩ := r
  · rfl
  · rcases he : V.effects e with _ | rest <;>
      simp [under, subst, Valuation.row, ofVar, he]

theorem mem_labels_under_of_some (h : r.tail = some e) :
    l ∈ (r.under V).labels ↔ l ∈ r.labels ∨ l ∈ (V.row e).labels := by
  simp [mem_labels_under, h]

theorem tail_under_of_some (h : r.tail = some e) : (r.under V).tail = (V.row e).tail := by
  rw [tail_under, h, Option.bind_some]

theorem IsSorted.under (h : r.IsSorted) (V : Valuation) : (r.under V).IsSorted := by
  rw [Row.under, subst]
  split
  · exact h
  · split
    · exact h
    · exact Sorted.isSorted_ofList _

/-- Replacing variables twice is replacing them once by the composition. -/
theorem under_andThen (r : Row) : r.under (V.andThen W) = (r.under V).under W := by
  obtain ⟨labels, _ | e⟩ := r
  · rfl
  -- the tail may be kept, closed or continued by another tail, which may be kept or continued
  · rcases hV : V.effects e with _ | ⟨middle, _ | f⟩
    · simp [under, subst, Valuation.andThen, hV]
    · simp [under, subst, Valuation.andThen, hV]
    · rcases hW : W.effects f with _ | rest
      · simp [under, subst, Valuation.andThen, hV, hW]
      · simp [under, subst, Valuation.andThen, hV, hW, Sorted.ofList_append_ofList]

theorem under_congr (h : ∀ e, r.tail = some e → V.effects e = W.effects e) :
    r.under V = r.under W := by
  rw [under, under, subst, subst]
  split
  · rfl
  · rename_i e he
    rw [h e he]

/-- A sorted row depends only on the rows its tail stands for. -/
theorem IsSorted.under_congr (hr : r.IsSorted) (hrows : ∀ e, r.tail = some e → V.row e = W.row e) :
    r.under V = r.under W := by
  refine eq_of_isSorted (hr.under V) (hr.under W) (fun l => ?_) ?_
  · rw [mem_labels_under, mem_labels_under]
    refine or_congr Iff.rfl (exists_congr fun e => and_congr_right fun he => ?_)
    rw [hrows e he]
  · rw [tail_under, tail_under]
    rcases htail : r.tail with _ | e
    · rfl
    · simp [hrows e htail]

end Row

namespace Valuation

@[simp]
theorem self_andThen (V : Valuation) : self.andThen V = V := rfl

/-- The row that a variable stands for under a composition. -/
theorem row_andThen (V W : Valuation) (e : EffectVar) :
    (V.andThen W).row e = (V.row e).under W :=
  Row.under_andThen _

theorem row_of_none {V : Valuation} {e : EffectVar} (h : V.effects e = none) :
    V.row e = .ofVar e := by
  simp [row, Row.under, Row.subst, Row.ofVar, h]

theorem row_of_some {V : Valuation} {e : EffectVar} {r : Row} (h : V.effects e = some r) :
    V.row e = { labels := Sorted.ofList r.labels, tail := r.tail } := by
  simp [row, Row.under, Row.subst, Row.ofVar, h]

theorem isSorted_row (V : Valuation) (e : EffectVar) : (V.row e).IsSorted :=
  (Row.isSorted_ofVar e).under V

end Valuation

/-! ## Types -/

namespace Ty

/-- Induction over types, with a hypothesis for every member of a list of types. -/
@[elab_as_elim, induction_eliminator]
theorem inductionOn {motive : Ty → Prop} (prim : ∀ p, motive (.prim p)) (var : ∀ v, motive (.var v))
    (named : ∀ name args, (∀ t ∈ args, motive t) → motive (.named name args))
    (app : ∀ head args, motive head → (∀ t ∈ args, motive t) → motive (.app head args))
    (fn : ∀ params result effects, (∀ t ∈ params, motive t) → motive result →
      motive (.fn params result effects))
    (tuple : ∀ elems, (∀ t ∈ elems, motive t) → motive (.tuple elems)) (t : Ty) : motive t :=
  @Ty.rec motive (fun ts => ∀ t ∈ ts, motive t) prim var named app
    (fun params result effects hparams hresult => fn params result effects hparams hresult) tuple
    (fun _ h => (not_mem_nil h).elim)
    (fun _ _ hhead htail _ h => (mem_cons.mp h).elim (· ▸ hhead) (htail _)) t

/-- Replacing the variables of a list is replacing those of every member. -/
theorem substAll_eq_map (σ : TypeVar → Ty) (ρ : EffectVar → Option Row) (ts : List Ty) :
    substAll σ ρ ts = ts.map (subst σ ρ) := by
  induction ts with
  | nil => rfl
  | cons t ts ih => rw [substAll, ih, map_cons]

section Equations

variable (V : Valuation)

@[simp]
theorem under_prim (p : Prim) : (prim p).under V = prim p := rfl

@[simp]
theorem under_var (v : TypeVar) : (var v).under V = V.types v := rfl

@[simp]
theorem under_named (name : String) (args : List Ty) :
    (named name args).under V = named name (args.map (·.under V)) := by
  rw [under, subst, substAll_eq_map]
  rfl

@[simp]
theorem under_app (head : Ty) (args : List Ty) :
    (app head args).under V = (head.under V).applyTo (args.map (·.under V)) := by
  rw [under, subst, substAll_eq_map]
  rfl

@[simp]
theorem under_fn (params : List Ty) (result : Ty) (effects : Row) :
    (fn params result effects).under V =
      fn (params.map (·.under V)) (result.under V) (effects.under V) := by
  rw [under, subst, substAll_eq_map]
  rfl

@[simp]
theorem under_tuple (elems : List Ty) :
    (tuple elems).under V = tuple (elems.map (·.under V)) := by
  rw [under, subst, substAll_eq_map]
  rfl

end Equations

/-! ### Applications -/

@[simp]
theorem applyTo_nil (head : Ty) : head.applyTo [] = head := rfl

/-- Applying to arguments in two steps is applying to all of them. -/
theorem applyTo_applyTo (head : Ty) (as bs : List Ty) :
    (head.applyTo as).applyTo bs = head.applyTo (as ++ bs) := by
  rcases as with _ | ⟨a, as⟩
  · rfl
  · rcases bs with _ | ⟨b, bs⟩
    · rw [applyTo_nil, append_nil]
    · cases head <;> simp [applyTo]

/-- Replacing variables commutes with bringing applications into normal form. -/
theorem under_applyTo (V : Valuation) (head : Ty) (args : List Ty) :
    (head.applyTo args).under V = (head.under V).applyTo (args.map (·.under V)) := by
  rcases args with _ | ⟨a, as⟩
  · rfl
  · cases head with
    -- the arguments join those of the inner application, which may itself be taken over by its head
    | app inner before =>
      rw [under_app, applyTo_applyTo, ← map_append, ← under_app]
      rfl
    | named name before => simp [applyTo]
    | prim p => simp [applyTo]
    | var v => simp [applyTo]
    | fn params result effects => simp [applyTo]
    | tuple elems => simp [applyTo]

/-- Replacing variables twice is replacing them once by the composition. -/
theorem under_andThen (V W : Valuation) (t : Ty) :
    t.under (V.andThen W) = (t.under V).under W := by
  induction t with
  | prim p => rfl
  | var v => rfl
  | named name args ih =>
    simp only [under_named, map_map]
    rw [map_congr_left ih]
    rfl
  | app head args ihHead ihArgs =>
    rw [under_app, under_app, under_applyTo, ihHead, map_map, map_congr_left ihArgs]
    rfl
  | fn params result effects ihParams ihResult =>
    simp only [under_fn, map_map, ihResult, Row.under_andThen]
    rw [map_congr_left ihParams]
    rfl
  | tuple elems ih =>
    simp only [under_tuple, map_map]
    rw [map_congr_left ih]
    rfl

end Ty

theorem Valuation.andThen_assoc (U V W : Valuation) :
    (U.andThen V).andThen W = U.andThen (V.andThen W) := by
  refine eq_of_agreesAt fun x => ?_
  rcases x with v | e
  · exact (Ty.under_andThen V W _).symm
  · change ((U.andThen V).andThen W).effects e = (U.andThen (V.andThen W)).effects e
    rcases he : U.effects e with _ | r
    · simp [andThen, he]
    · simp only [andThen, he]
      rw [← Row.under_andThen]
      rfl

namespace Ty

/-! ### Variables -/

variable {x : Var} {V : Valuation}

theorem mem_occurrences_named {name : String} {args : List Ty} :
    x ∈ (named name args).occurrences ↔ ∃ t ∈ args, x ∈ t.occurrences := by
  rw [occurrences, mem_occurrencesAll]

theorem mem_occurrences_app {head : Ty} {args : List Ty} :
    x ∈ (app head args).occurrences ↔ x ∈ head.occurrences ∨ ∃ t ∈ args, x ∈ t.occurrences := by
  rw [occurrences, mem_append, mem_occurrencesAll]

theorem mem_occurrences_fn {params : List Ty} {result : Ty} {effects : Row} :
    x ∈ (fn params result effects).occurrences ↔
      (∃ t ∈ params, x ∈ t.occurrences) ∨ x ∈ result.occurrences ∨
        ∃ e, effects.tail = some e ∧ x = .effect e := by
  rw [occurrences, mem_append, mem_append, mem_occurrencesAll, or_assoc]
  refine or_congr Iff.rfl (or_congr Iff.rfl ?_)
  rcases effects.tail with _ | e <;> simp

theorem mem_occurrences_tuple {elems : List Ty} :
    x ∈ (tuple elems).occurrences ↔ ∃ t ∈ elems, x ∈ t.occurrences := by
  rw [occurrences, mem_occurrencesAll]

/-- The variables of a type under a valuation are those of what its variables stand for. -/
theorem mem_occurrences_under {t : Ty} :
    x ∈ (t.under V).occurrences ↔ ∃ y ∈ t.occurrences, x ∈ V.image y := by
  have himage (y : Var) : V.image y = replacements V.types V.effects y := by cases y <;> rfl
  simp only [himage]
  exact mem_occurrences_subst

/-! ### Rows of a type -/

mutual

/-- All rows that occur in a type. -/
def rows : Ty → List Row
  | .prim _ | .var _ => []
  | .named _ args => rowsAll args
  | .app head args => head.rows ++ rowsAll args
  | .fn params result effects => rowsAll params ++ result.rows ++ [effects]
  | .tuple elems => rowsAll elems

/-- All rows that occur in a list of types. -/
def rowsAll : List Ty → List Row
  | [] => []
  | t :: ts => t.rows ++ rowsAll ts

end

theorem mem_rowsAll {r : Row} {ts : List Ty} : r ∈ rowsAll ts ↔ ∃ t ∈ ts, r ∈ t.rows := by
  induction ts with
  | nil => simp [rowsAll]
  | cons t ts ih => simp [rowsAll, ih]

variable {args ts : List Ty} {r : Row} {W : Valuation} {t : Ty}

theorem mem_rows_named {name : String} : r ∈ (named name args).rows ↔ ∃ t ∈ args, r ∈ t.rows :=
  mem_rowsAll

theorem mem_rows_app {head : Ty} :
    r ∈ (app head args).rows ↔ r ∈ head.rows ∨ ∃ t ∈ args, r ∈ t.rows := by
  rw [rows, mem_append, mem_rowsAll]

theorem mem_rows_fn {params : List Ty} {result : Ty} {effects : Row} :
    r ∈ (fn params result effects).rows ↔
      (∃ t ∈ params, r ∈ t.rows) ∨ r ∈ result.rows ∨ r = effects := by
  rw [rows, mem_append, mem_append, mem_rowsAll, mem_singleton, or_assoc]

theorem mem_rows_tuple {elems : List Ty} : r ∈ (tuple elems).rows ↔ ∃ t ∈ elems, r ∈ t.rows :=
  mem_rowsAll

mutual

/-- The tail of every row of a type is a variable of the type. -/
theorem tail_mem_occurrences {e : EffectVar} :
    {t : Ty} → r ∈ t.rows → r.tail = some e → .effect e ∈ t.occurrences
  | .prim _, hr, _ | .var _, hr, _ => by cases hr
  | .named _ _, hr, he | .tuple _, hr, he => tail_mem_occurrencesAll hr he
  | .app _ _, hr, he => by
    simp only [rows, occurrences, mem_append] at hr ⊢
    exact hr.imp (tail_mem_occurrences · he) (tail_mem_occurrencesAll · he)
  | .fn _ _ _, hr, he => by
    simp only [rows, occurrences, mem_append, mem_singleton] at hr ⊢
    refine hr.imp (Or.imp (tail_mem_occurrencesAll · he) (tail_mem_occurrences · he)) ?_
    rintro rfl
    simp [he]

theorem tail_mem_occurrencesAll {e : EffectVar} :
    {ts : List Ty} → r ∈ rowsAll ts → r.tail = some e → .effect e ∈ occurrencesAll ts
  | [], hr, _ => by cases hr
  | _ :: _, hr, he => by
    simp only [rowsAll, occurrencesAll, mem_append] at hr ⊢
    exact hr.imp (tail_mem_occurrences · he) (tail_mem_occurrencesAll · he)

end

mutual

/-- Only the type variables and rows of a type matter for what it stands for. -/
theorem under_congr_of : {t : Ty} → (∀ v, .type v ∈ t.occurrences → V.types v = W.types v) →
    (∀ r ∈ t.rows, r.under V = r.under W) → t.under V = t.under W
  | .prim _, _, _ => rfl
  | .var v, hv, _ => hv v (.head _)
  | .named name _, hv, hr => congrArg (named name) (substAll_congr_of hv hr)
  | .app _ _, hv, hr => by
    simp only [occurrences, rows, mem_append, or_imp, forall_and] at hv hr
    exact congrArg₂ applyTo (under_congr_of hv.1 hr.1) (substAll_congr_of hv.2 hr.2)
  | .fn _ _ effects, hv, hr => by
    simp only [occurrences, rows, mem_append, or_imp, forall_and] at hv hr
    exact (fn.injEq ..).mpr
      ⟨substAll_congr_of hv.1.1 hr.1.1, under_congr_of hv.1.2 hr.1.2, hr.2 effects (.head _)⟩
  | .tuple _, hv, hr => congrArg tuple (substAll_congr_of hv hr)

theorem substAll_congr_of :
    {ts : List Ty} → (∀ v, .type v ∈ occurrencesAll ts → V.types v = W.types v) →
    (∀ r ∈ rowsAll ts, r.under V = r.under W) → substAll V.types V.effects ts =
      substAll W.types W.effects ts
  | [], _, _ => rfl
  | _ :: _, hv, hr => by
    simp only [occurrencesAll, rowsAll, mem_append, or_imp, forall_and] at hv hr
    exact congrArg₂ List.cons (under_congr_of hv.1 hr.1) (substAll_congr_of hv.2 hr.2)

end

/-- Only the variables that occur in a type matter for what it stands for. -/
theorem under_congr (h : ∀ x ∈ t.occurrences, V.AgreesAt W x) : t.under V = t.under W :=
  under_congr_of (fun _ hv => h _ hv) fun _ hr => Row.under_congr
    fun _ he => h _ (tail_mem_occurrences hr he)

end Ty

/-- After `V`, only the meanings of the variables that `V` leaves matter. -/
theorem Valuation.AgreesAt.andThen {V W W' : Valuation} {x : Var}
    (h : ∀ y ∈ V.image x, W.AgreesAt W' y) : (V.andThen W).AgreesAt (V.andThen W') x := by
  rcases x with v | e
  · exact Ty.under_congr h
  · change (V.andThen W).effects e = (V.andThen W').effects e
    rcases he : V.effects e with _ | r
    · have hself : W.effects e = W'.effects e :=
        h (.effect e) (by simp [image, row_of_none he, Row.ofVar])
      simpa [Valuation.andThen, he] using hself
    · have hrow : r.under W = r.under W' := Row.under_congr fun f hf =>
        h (.effect f) (by simp [image, row_of_some he, hf])
      simp [Valuation.andThen, he, hrow]

namespace Ty

variable {args : List Ty} {r : Row} {V : Valuation} {t : Ty}

/-- The rows of an application in normal form are those of the head and of the arguments. -/
theorem mem_rows_applyTo {head : Ty} :
    r ∈ (head.applyTo args).rows ↔ r ∈ head.rows ∨ ∃ t ∈ args, r ∈ t.rows := by
  rcases args with _ | ⟨a, as⟩
  · simp
  · cases head <;>
      simp [applyTo, rows, mem_rowsAll, or_and_right, exists_or, or_assoc]

mutual

/-- The rows of a type under a valuation are its own rows under the valuation and the rows of what
its type variables stand for. -/
theorem mem_rows_under : {t : Ty} → (r ∈ (t.under V).rows ↔
    (∃ r₀ ∈ t.rows, r = r₀.under V) ∨ ∃ v, .type v ∈ t.occurrences ∧ r ∈ (V.types v).rows)
  | .prim _ | .var _ => by simp [rows, occurrences]
  | .named _ _ | .tuple _ => mem_rowsAll_under
  | .app head args => by
    change r ∈ ((head.under V).applyTo _).rows ↔ _
    rw [mem_rows_applyTo, ← mem_rowsAll, mem_rows_under, mem_rowsAll_under]
    simp only [rows, occurrences, mem_append, or_and_right, exists_or]
    exact or_or_or_comm
  | .fn params result effects => by
    change r ∈ rowsAll _ ++ (result.under V).rows ++ [effects.under V] ↔ _
    have htail (v : TypeVar) : .type v ∉ (effects.tail.map Var.effect).toList := by simp
    simp only [rows, occurrences, mem_append, mem_singleton, mem_rowsAll_under,
      mem_rows_under, htail,
      or_and_right, exists_or, exists_eq_left, or_false]
    -- both sides list the own rows and those of the variables, in different orders
    rw [or_or_or_comm, or_right_comm]

theorem mem_rowsAll_under : {ts : List Ty} → (r ∈ rowsAll (substAll V.types V.effects ts) ↔
    (∃ r₀ ∈ rowsAll ts, r = r₀.under V) ∨ ∃ v, .type v ∈ occurrencesAll ts ∧ r ∈ (V.types v).rows)
  | [] => by simp [substAll, rowsAll, occurrencesAll]
  | t :: ts => by
    change r ∈ (t.under V).rows ++ rowsAll (substAll V.types V.effects ts) ↔ _
    simp only [rowsAll, occurrencesAll, mem_append, mem_rows_under, mem_rowsAll_under, or_and_right,
      exists_or]
    exact or_or_or_comm

end

/-- All rows of the type are sorted. -/
def RowsSorted (t : Ty) : Prop :=
  ∀ r ∈ t.rows, r.IsSorted

/-- A type with sorted rows has sorted rows under a valuation by such types. -/
theorem RowsSorted.under (h : t.RowsSorted)
    (hV : ∀ v, .type v ∈ t.occurrences → (V.types v).RowsSorted) :
    (t.under V).RowsSorted := by
  intro r hr
  rcases mem_rows_under.mp hr with ⟨r₀, hr₀, rfl⟩ | ⟨v, hv, hr⟩
  · exact (h r₀ hr₀).under V
  · exact hV v hv r hr

/-- A type with sorted rows depends only on the types and rows its variables stand for. -/
theorem RowsSorted.under_congr {W : Valuation} (ht : t.RowsSorted)
    (h : ∀ x ∈ t.occurrences, V.SameAt W x) :
    t.under V = t.under W :=
  under_congr_of (fun _ hv => h _ hv) fun r hr => (ht r hr).under_congr
    fun _ he => h _ (tail_mem_occurrences hr he)

end Ty

end RowTyping
