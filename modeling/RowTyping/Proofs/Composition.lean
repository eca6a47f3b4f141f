import RowTyping.Proofs.Unify.Sequence

/-!
# Applying and composing substitutions

Applying a substitution without cycles follows every chain of bindings to its end: what is left are
exactly the unbound variables that the bindings lead to (`Subst.Acyclic.mem_image_iff`), so applying
it again changes nothing. In the result all arguments of an application are in one place.

A composition binds every variable to what the two substitutions make of it one after the other. If
the second one does not mention what the first one binds, the bindings of the composition lead to
unbound variables only (`Subst.Resolved`), and the composition acts like one substitution after the
other (`Subst.valuation_compose`).
-/

namespace RowTyping

open List

/-! ## Parts of a type -/

/-- The first type is the second one or stands within it. -/
inductive Ty.PartOf (t : Ty) : Ty → Prop
  | self : PartOf t t
  | named {name : String} {args : List Ty} {u : Ty} (hu : u ∈ args) (h : PartOf t u) :
    PartOf t (.named name args)
  | head {head : Ty} {args : List Ty} (h : PartOf t head) : PartOf t (.app head args)
  | arg {head : Ty} {args : List Ty} {u : Ty} (hu : u ∈ args) (h : PartOf t u) :
    PartOf t (.app head args)
  | param {params : List Ty} {result : Ty} {effects : Row} {u : Ty} (hu : u ∈ params)
    (h : PartOf t u) : PartOf t (.fn params result effects)
  | result {params : List Ty} {result : Ty} {effects : Row} (h : PartOf t result) :
    PartOf t (.fn params result effects)
  | elem {elems : List Ty} {u : Ty} (hu : u ∈ elems) (h : PartOf t u) : PartOf t (.tuple elems)

/-- The parts of a normal type are normal. -/
theorem Ty.Normal.partOf {t u : Ty} (hu : u.Normal) (h : t.PartOf u) : t.Normal := by
  induction h with
  | self => exact hu
  | named hmem _ ih => cases hu with | named _ hargs => exact ih (hargs _ hmem)
  | head _ ih => cases hu with | app hhead _ _ => exact ih hhead
  | arg hmem _ ih => cases hu with | app _ _ hargs => exact ih (hargs _ hmem)
  | param hmem _ ih => cases hu with | fn _ hparams _ => exact ih (hparams _ hmem)
  | result _ ih => cases hu with | fn _ _ hresult => exact ih hresult
  | elem hmem _ ih => cases hu with | tuple helems => exact ih (helems _ hmem)

/-- An application in a normal type has arguments, and its head is neither a constructor nor an
application. -/
theorem Ty.Normal.of_app {head : Ty} {args : List Ty} (h : (Ty.app head args).Normal) :
    args ≠ [] ∧ (∀ name before, head ≠ .named name before) ∧
    ∀ inner before, head ≠ .app inner before := by
  cases h with
  | app _ hnew _ =>
    refine ⟨cons_ne_nil _ _, ?_, ?_⟩
    · rintro name before rfl
      cases hnew (.prim .unit) []
    · rintro inner before rfl
      -- the arguments would join those of the inner application
      have hlength := congrArg Ty.size (hnew (.prim .unit) [])
      simp only [Ty.applyTo, isEmpty_cons, Bool.false_eq_true, if_false, Ty.size, Ty.sizeAll_append]
        at hlength
      omega

theorem Valuation.mem_image_andThen {V W : Valuation} {x y : Var} :
    x ∈ (V.andThen W).image y ↔ ∃ z ∈ V.image y, x ∈ W.image z := by
  cases y with
  | type v => exact Ty.mem_occurrences_under
  | effect e =>
    rw [image, image, row_andThen, Row.tail_under]
    rcases (V.row e).tail with _ | f <;> simp [image]

namespace Subst

variable {s later : Subst}

/-! ## The ends of chains of bindings -/

/-- A variable stands for exactly the unbound variables that the bindings lead to. -/
theorem Acyclic.mem_image_iff (h : s.Acyclic) {x y : Var} :
    y ∈ s.valuation.image x ↔ ¬ s.Binds y ∧ Relation.ReflTransGen s.LeadsTo x y := by
  refine ⟨fun hy => (h.mem_image hy).symm, ?_⟩
  rintro ⟨hunbound, hpath⟩
  induction hpath using Relation.ReflTransGen.head_induction_on with
  | refl => simp [image_of_not_binds hunbound]
  | head hstep _ ih => exact h.image_of_leadsTo hstep ih

/-- The labels of a tail are those of all rows on its chain of bindings. -/
theorem Acyclic.mem_labels_row (h : s.Acyclic) {e : EffectVar} {l : String} :
    l ∈ (s.valuation.row e).labels ↔ ∃ f r,
      Relation.ReflTransGen s.LeadsTo (.effect e) (.effect f) ∧ s.effects.get? f = some r ∧
      l ∈ r.labels := by
  refine h.induction (P := fun x => ∀ e, x = .effect e → (l ∈ (s.valuation.row e).labels ↔ ∃ f r,
      Relation.ReflTransGen s.LeadsTo (.effect e) (.effect f) ∧ s.effects.get? f = some r ∧
        l ∈ r.labels))
    (fun x ih e hx => ?_) (.effect e) e rfl
  subst hx
  rcases hr : s.effects.get? e with _ | r
  · rw [Valuation.row_of_none (effects_of_unbound hr)]
    refine iff_of_false not_mem_nil ?_
    rintro ⟨f, r, hpath, hf, -⟩
    rcases hpath.cases_head with heq | ⟨y, hstep, -⟩
    · cases heq
      cases hr.symm.trans hf
    · simpa [Binds, hr] using hstep.binds
  · have hstep {y : Var} (hy : s.LeadsTo (.effect e) y) : ∃ f, r.tail = some f ∧ y = .effect f := by
      rcases leadsTo_iff.mp hy with ⟨v, t, hv, -⟩ | ⟨e', r', f, he, hr', hf, rfl⟩
      · cases hv
      · cases he
        obtain rfl := Option.some.inj (hr.symm.trans hr')
        exact ⟨f, hf, rfl⟩
    rw [Valuation.row_of_some (h.effects_of_bound hr), Sorted.mem_ofList, Row.mem_labels_under]
    constructor
    · rintro (hl | ⟨f, hf, hl⟩)
      · exact ⟨e, r, .refl, hr, hl⟩
      · have hlead := leadsTo_of_effects hr hf
        obtain ⟨g, r', hpath, hr', hl⟩ := (ih _ hlead f rfl).mp hl
        exact ⟨g, r', .head hlead hpath, hr', hl⟩
    · rintro ⟨g, r', hpath, hr', hl⟩
      rcases hpath.cases_head with heq | ⟨y, hlead, hpath⟩
      · cases heq
        obtain rfl := Option.some.inj (hr.symm.trans hr')
        exact .inl hl
      · obtain ⟨f, hf, rfl⟩ := hstep hlead
        exact .inr ⟨f, hf, (ih _ hlead f rfl).mpr ⟨g, r', hpath, hr', hl⟩⟩

theorem Acyclic.apply_apply (h : s.Acyclic) (t : Ty) : s.apply (s.apply t) = s.apply t :=
  under_apply h.absorbs t

theorem Acyclic.applyRow_applyRow (h : s.Acyclic) (r : Row) :
    s.applyRow (s.applyRow r) = s.applyRow r :=
  under_applyRow h.absorbs r

theorem normal_apply (s : Subst) (t : Ty) : (s.apply t).Normal :=
  t.normal_under s.normal_valuation

/-- Applying a substitution without cycles is idempotent and complete. What is left of a type are
exactly the unbound variables that its variables lead to, every application has arguments and a head
that is neither a constructor nor an application, and the occurs check finds exactly the free
variables of the result. A row keeps its labels and gets those of all rows on the chain of its
tail. -/
theorem apply_idempotent_complete (hs : s.Acyclic) :
    (∀ t : Ty, s.apply (s.apply t) = s.apply t ∧
      (∀ x ∈ (s.apply t).occurrences, ¬ s.Binds x) ∧
      (∀ x, ¬ s.Binds x → (x ∈ (s.apply t).occurrences ↔
        ∃ y ∈ t.occurrences, Relation.ReflTransGen s.LeadsTo y x)) ∧
      (∀ head args, (Ty.app head args).PartOf (s.apply t) →
        args ≠ [] ∧ (∀ name before, head ≠ .named name before) ∧
        ∀ inner before, head ≠ .app inner before) ∧
      ∀ v, s.occurs v t = true ↔ v ∈ (s.apply t).typeVars) ∧
    ∀ r : Row, s.applyRow (s.applyRow r) = s.applyRow r ∧
      (∀ e, (s.applyRow r).tail = some e → ¬ s.Binds (.effect e)) ∧
      (∀ e, ¬ s.Binds (.effect e) → ((s.applyRow r).tail = some e ↔
        ∃ f, r.tail = some f ∧ Relation.ReflTransGen s.LeadsTo (.effect f) (.effect e))) ∧
      ∀ l, l ∈ (s.applyRow r).labels ↔ l ∈ r.labels ∨ ∃ f e r', r.tail = some f ∧
        Relation.ReflTransGen s.LeadsTo (.effect f) (.effect e) ∧ s.effects.get? e = some r' ∧
        l ∈ r'.labels := by
  have htail (r : Row) (e : EffectVar) : (s.applyRow r).tail = some e ↔
      ∃ f, r.tail = some f ∧ .effect e ∈ s.valuation.image (.effect f) := by
    rw [applyRow_eq_under, Row.tail_under, Option.bind_eq_some_iff]
    simp [Valuation.image]
  constructor
  · intro t
    refine ⟨hs.apply_apply t, fun x hx => ?_, fun x hunbound => ?_, fun head args hpart => ?_,
      fun v => ?_⟩
    · obtain ⟨y, -, hx⟩ := mem_occurrences_apply.mp hx
      exact (hs.mem_image_iff.mp hx).1
    · simp only [mem_occurrences_apply, hs.mem_image_iff, hunbound, not_false_eq_true, true_and]
    · exact ((s.normal_apply t).partOf hpart).of_app
    · simp [occurs, Ty.typeVars]
  · intro r
    refine ⟨hs.applyRow_applyRow r, fun e he => ?_, fun e hunbound => ?_, fun l => ?_⟩
    · obtain ⟨f, -, hf⟩ := (htail r e).mp he
      exact (hs.mem_image_iff.mp hf).1
    · simp only [htail, hs.mem_image_iff, hunbound, not_false_eq_true, true_and]
    · rw [applyRow_eq_under, Row.mem_labels_under]
      simp only [hs.mem_labels_row, ← exists_and_left]

/-! ### A chain through the head of an application -/

/-- `a` stands for `b` applied to no argument and then to `Int`, `b` for `c d` and `c` for the
constructor `Either`. The tail `e` is continued by `f` and `f` is closed. -/
private def chained : Subst :=
  ((((empty.bindType ⟨0⟩ (.app (.app (.var ⟨1⟩) []) [.int])).bindType ⟨1⟩
    (.app (.var ⟨2⟩) [.var ⟨3⟩])).bindType ⟨2⟩ (.named "Either" [])).bindEffect ⟨0⟩
      (.extensible ["State"] ⟨1⟩)).bindEffect ⟨1⟩ (.closed ["IO"])

private theorem acyclic_chained : chained.Acyclic := by
  refine Acyclic.bindEffect (Acyclic.bindEffect (Acyclic.bindType (Acyclic.bindType
    (Acyclic.bindType acyclic_empty ?_ ?_) ?_ ?_) ?_ ?_) ?_) ?_
  case refine_7 =>
    rintro e ⟨⟩
    decide
  case refine_8 => rintro e ⟨⟩
  all_goals decide

/-- Raw nested and empty applications around a chain of bindings come out as one constructor with
both arguments. -/
theorem apply_idempotent_complete_chained :
    chained.Acyclic ∧ chained.apply (.fn [.app (.var ⟨0⟩) []] (.var ⟨3⟩) (.ofVar ⟨0⟩)) =
        .fn [.named "Either" [.var ⟨3⟩, .int]] (.var ⟨3⟩) (.closed ["IO", "State"]) ∧
      ∀ t : Ty, chained.apply (chained.apply t) = chained.apply t :=
  ⟨acyclic_chained, by decide, fun t => ((apply_idempotent_complete acyclic_chained).1 t).1⟩

/-! ## Composition -/

/-- All bindings lead to unbound variables. -/
def Resolved (s : Subst) : Prop :=
  ∀ x y, s.LeadsTo x y → ¬ s.Binds y

theorem Resolved.acyclic (h : s.Resolved) : s.Acyclic :=
  acyclic_empty.of_sinks fun x y hxy => .inr (h x y hxy)

theorem Resolved.types_of_bound (h : s.Resolved) {v : TypeVar} {t : Ty}
    (ht : s.types.get? v = some t) (hnormal : t.Normal) : s.valuation.types v = t := by
  rw [h.acyclic.types_of_bound ht,
    Ty.under_congr fun x hx => agreesAt_self (h _ x (leadsTo_of_types ht hx)), hnormal.under_self]

theorem Resolved.effects_of_bound (h : s.Resolved) {e : EffectVar} {r : Row}
    (hr : s.effects.get? e = some r) : s.valuation.effects e = some r := by
  rw [h.acyclic.effects_of_bound hr,
    Row.under_congr fun f hf => agreesAt_self (h _ (.effect f) (leadsTo_of_effects hr hf)),
      Row.under_self]

section Bindings

variable {κ α : Type} [DecidableEq κ] [Ord κ] [Std.LawfulEqOrd κ]

omit [Ord κ] [Std.LawfulEqOrd κ] in
theorem isSome_get?_of_mem {d : Dict κ α} {entry : κ × α} (h : entry ∈ d.entries) :
    (d.get? entry.1).isSome := by
  obtain ⟨entries⟩ := d
  change (Dict.lookup entry.1 entries).isSome
  induction entries with
  | nil => cases h
  | cons first rest ih =>
    rw [Dict.lookup]
    split
    · rfl
    · rename_i hne
      exact ih ((mem_cons.mp h).resolve_left fun heq => hne (congrArg Prod.fst heq))

theorem get?_insertNew (d : Dict κ α) (k k' : κ) (a : α) :
    (d.insertNew k a).get? k' = (d.get? k').or (if k' = k then some a else none) := by
  rw [Dict.insertNew, Dict.contains]
  split
  · rename_i hk
    by_cases h : k' = k
    · subst h
      simp [Option.or_of_isSome hk]
    · simp [h]
  · rename_i hk
    by_cases h : k' = k
    · subst h
      simp [Option.not_isSome_iff_eq_none.mp hk]
    · simp [h]

theorem get?_foldl_insertNew (skip : κ → Bool) (f : α → α) (entries : List (κ × α)) (d : Dict κ α)
    (k : κ) :
    (entries.foldl (fun d (k, a) => if skip k then d else d.insertNew k (f a)) d).get? k =
      (d.get? k).or (if skip k then none else (Dict.lookup k entries).map f) := by
  induction entries generalizing d with
  | nil => simp [Dict.lookup]
  | cons entry rest ih =>
    obtain ⟨k₀, a⟩ := entry
    rw [foldl_cons, ih]
    dsimp only [Dict.lookup]
    by_cases hk : k = k₀
    · subst hk
      cases skip k <;> simp [get?_insertNew]
    · cases skip k₀ <;> simp [get?_insertNew, hk]

variable [DecidableEq α]

/-- If no binding comes out as the variable itself, all bindings of the first substitution are
kept. -/
theorem get?_composeBindings {self : κ → α} {resolve resolveLater : α → α} {first later : Dict κ α}
    (h : ∀ entry ∈ first.entries, resolve entry.2 ≠ self entry.1) (k : κ) :
    (composeBindings self resolve resolveLater first later).get? k =
      ((first.get? k).map resolve).or ((later.get? k).map resolveLater) := by
  have hfirst : first.entries.foldl (fun (d : Dict κ α) (k, a) =>
      if resolve a = self k then d else d.insertNew k (resolve a)) .empty =
      first.entries.foldl (fun d (k, a) => if false then d else d.insertNew k (resolve a)) .empty :=
    foldl_ext _ _ _ fun d entry hentry => if_neg (h entry hentry)
  rw [composeBindings, hfirst, get?_foldl_insertNew first.contains,
    get?_foldl_insertNew fun _ => false]
  change ((first.get? k).map resolve).or
    (if first.contains k then none else (later.get? k).map resolveLater) = _
  rcases hk : first.get? k with _ | a <;> simp [Dict.contains, hk]

end Bindings

section Sequential

variable (hs : s.Acyclic) (hlater : later.Acyclic) (hapart : ∀ x, s.Binds x → ¬ later.Mentions x)

include hs hlater hapart

/-- What is left after both substitutions is bound by neither. -/
theorem not_binds_of_mem_image {x y : Var}
    (hx : x ∈ (s.valuation.andThen later.valuation).image y) :
    ¬ s.Binds x ∧ ¬ later.Binds x := by
  obtain ⟨z, hz, hx⟩ := Valuation.mem_image_andThen.mp hx
  refine ⟨fun hbinds => ?_, (hlater.mem_image hx).2⟩
  rcases hlater.mentions_of_mem_image hx with rfl | hmentions
  · exact (hs.mem_image hz).2 hbinds
  · exact hapart x hbinds hmentions

theorem types_compose (v : TypeVar) : (s.compose later).types.get? v =
    ((s.types.get? v).map fun t => later.apply (s.apply t)).or
      ((later.types.get? v).map later.apply) := by
  refine get?_composeBindings (fun entry hentry heq => ?_) v
  have hmem : .type entry.1 ∈
      (entry.2.under (s.valuation.andThen later.valuation)).occurrences := by
    rw [Ty.under_andThen, ← apply_eq_under, ← apply_eq_under, heq]
    exact mem_singleton.mpr rfl
  obtain ⟨y, -, hy⟩ := Ty.mem_occurrences_under.mp hmem
  exact (not_binds_of_mem_image hs hlater hapart hy).1 (isSome_get?_of_mem hentry)

theorem effects_compose (e : EffectVar) : (s.compose later).effects.get? e =
    ((s.effects.get? e).map fun r => later.applyRow (s.applyRow r)).or
      ((later.effects.get? e).map later.applyRow) := by
  refine get?_composeBindings (fun entry hentry heq => ?_) e
  have htail : (entry.2.under (s.valuation.andThen later.valuation)).tail = some entry.1 := by
    rw [Row.under_andThen, ← applyRow_eq_under, ← applyRow_eq_under, heq]
    rfl
  rw [Row.tail_under, Option.bind_eq_some_iff] at htail
  obtain ⟨f, -, hf⟩ := htail
  have hmem : .effect entry.1 ∈ (s.valuation.andThen later.valuation).image (.effect f) := by
    simp [Valuation.image, hf]
  exact (not_binds_of_mem_image hs hlater hapart hmem).1 (isSome_get?_of_mem hentry)

theorem binds_compose {x : Var} : (s.compose later).Binds x ↔ s.Binds x ∨ later.Binds x := by
  cases x with
  | type v => simp [Binds, types_compose hs hlater hapart]
  | effect e => simp [Binds, effects_compose hs hlater hapart]

/-- A type variable is bound to what it stands for after both substitutions. -/
theorem types_of_compose {v : TypeVar} {t : Ty} (ht : (s.compose later).types.get? v = some t) :
    (s.valuation.andThen later.valuation).types v = t := by
  rw [types_compose hs hlater hapart] at ht
  change (s.valuation.types v).under later.valuation = t
  rcases hv : s.types.get? v with _ | u
  · obtain ⟨u, hu, rfl⟩ : ∃ u, later.types.get? v = some u ∧ later.apply u = t := by
      simpa [hv] using ht
    rw [types_of_unbound hv, Ty.under_var, hlater.types_of_bound hu, apply_eq_under]
  · obtain rfl : later.apply (s.apply u) = t := by simpa [hv] using ht
    rw [hs.types_of_bound hv, apply_eq_under, apply_eq_under]

theorem effects_of_compose {e : EffectVar} {r : Row}
    (hr : (s.compose later).effects.get? e = some r) :
    (s.valuation.andThen later.valuation).effects e = some r := by
  rw [effects_compose hs hlater hapart] at hr
  rcases he : s.effects.get? e with _ | q
  · obtain ⟨q, hq, rfl⟩ : ∃ q, later.effects.get? e = some q ∧ later.applyRow q = r := by
      simpa [he] using hr
    simp [Valuation.andThen, effects_of_unbound he, hlater.effects_of_bound hq, applyRow_eq_under]
  · obtain rfl : later.applyRow (s.applyRow q) = r := by simpa [he] using hr
    simp [Valuation.andThen, hs.effects_of_bound he, applyRow_eq_under]

theorem resolved_compose : (s.compose later).Resolved := by
  intro x y hxy hbinds
  have hy : y ∈ (s.valuation.andThen later.valuation).image x := by
    rcases leadsTo_iff.mp hxy with ⟨v, t, rfl, ht, hy⟩ | ⟨e, r, f, rfl, hr, hf, rfl⟩
    · rwa [Valuation.image, types_of_compose hs hlater hapart ht]
    · simp [Valuation.image, Valuation.row_of_some (effects_of_compose hs hlater hapart hr), hf]
  obtain ⟨hfirst, hsecond⟩ := not_binds_of_mem_image hs hlater hapart hy
  exact ((binds_compose hs hlater hapart).mp hbinds).elim hfirst hsecond

/-- The composition acts like one substitution after the other. -/
theorem valuation_compose : (s.compose later).valuation = s.valuation.andThen later.valuation := by
  have hresolved := resolved_compose hs hlater hapart
  refine Valuation.eq_of_agreesAt fun x => ?_
  by_cases hx : (s.compose later).Binds x
  · rcases x with v | e
    · obtain ⟨t, ht⟩ := Option.isSome_iff_exists.mp hx
      have hvalue := types_of_compose hs hlater hapart ht
      have hnormal : t.Normal :=
        hvalue ▸ Ty.normal_under later.normal_valuation (s.valuation.types v)
      exact (hresolved.types_of_bound ht hnormal).trans hvalue.symm
    · obtain ⟨r, hr⟩ := Option.isSome_iff_exists.mp hx
      exact (hresolved.effects_of_bound hr).trans (effects_of_compose hs hlater hapart hr).symm
  · -- a variable that neither binds stands for itself throughout
    obtain ⟨hfirst, hsecond⟩ := not_or.mp (mt (binds_compose hs hlater hapart).mpr hx)
    exact (agreesAt_self hx).trans
      ((agreesAt_of_not_binds hfirst _).trans (agreesAt_self hsecond)).symm

end Sequential

/-- Composition is sequential application: if the second substitution neither binds nor mentions
what the first one binds, the composition has no cycle and acts on types and rows like one after the
other. -/
theorem compose_sequential {first later : Subst} (hfirst : first.Acyclic) (hlater : later.Acyclic)
    (hapart : ∀ x, first.Binds x → ¬ later.Mentions x) :
    (first.compose later).Acyclic ∧
      (∀ t, (first.compose later).apply t = later.apply (first.apply t)) ∧
      ∀ r, (first.compose later).applyRow r = later.applyRow (first.applyRow r) := by
  have hvaluation := valuation_compose hfirst hlater hapart
  refine ⟨(resolved_compose hfirst hlater hapart).acyclic, fun t => ?_, fun r => ?_⟩
  · simp only [apply_eq_under, hvaluation, Ty.under_andThen]
  · simp only [applyRow_eq_under, hvaluation, Row.under_andThen]

/-- The second substitution makes the head of an application, which the first one leaves open, a
constructor, and continues the tail that the first one leaves. -/
theorem compose_sequential_heads :
    let first :=
  (empty.bindType ⟨0⟩ (.app (.var ⟨1⟩) [.int])).bindEffect ⟨0⟩ (.extensible ["State"] ⟨1⟩)
    let later := (empty.bindType ⟨1⟩ (.named "List" [])).bindEffect ⟨1⟩ (.extensible ["IO"] ⟨2⟩)
    let t := Ty.fn [.var ⟨0⟩] (.app (.var ⟨1⟩) [.var ⟨0⟩]) (.ofVar ⟨0⟩)
    later.apply (first.apply t) = .fn [.named "List" [.int]] (.named "List" [.named "List" [.int]])
        (.extensible ["IO", "State"] ⟨2⟩) ∧
      (first.compose later).apply t = later.apply (first.apply t) := by
  intro first later t
  have hfirst : first.Acyclic :=
    (acyclic_empty.bindType (by decide) (by decide)).bindEffect (by rintro e ⟨⟩; decide)
  have hlater : later.Acyclic :=
    (acyclic_empty.bindType (by decide) (by decide)).bindEffect (by rintro e ⟨⟩; decide)
  refine ⟨by decide, (compose_sequential hfirst hlater ?_).2.1 t⟩
  rintro x hx (hbinds | ⟨y, hy⟩)
  · rcases binds_bindEffect.mp hx with rfl | hx
    · cases hbinds
    · rcases binds_bindType.mp hx with rfl | hx
      · cases hbinds
      · cases x <;> cases hx
  · rcases leadsTo_bindEffect hy with ⟨-, e, ⟨⟩, rfl⟩ | hy
    · cases hx
    · rcases leadsTo_bindType hy with ⟨-, hy⟩ | hy
      · cases hy
      · exact not_leadsTo_empty hy

end Subst

end RowTyping
