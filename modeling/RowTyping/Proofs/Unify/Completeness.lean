import RowTyping.Proofs.Unify.Sequence

/-!
# Unification is complete and most general

A solution of a configuration is a substitution that respects the bindings, solves the equations and
gives no tail a label that stands before it. No equation with a solution is a clash
(`Unify.Config.Solution.not_clash`), and every step keeps a solution, up to the tail it draws
(`Unify.Step.solution`). So unification of types with a solution succeeds, and the solution factors
through the result.

Types are compared after their applications have been brought into normal form (`Ty.Normal`), which
leaves no application without arguments. On such types the head and the arguments of an application
are determined by the application (`Ty.Normal.applyTo_inj`).
-/

namespace RowTyping

open List

/-! ## Applications with arguments -/

namespace Ty

/-- The constructor name or the head of a type, and the arguments. -/
def spine : Ty → (String ⊕ Ty) × List Ty
  | .named name args => (.inl name, args)
  | .app head args => (.inr head, args)
  | .prim p => (.inr (.prim p), [])
  | .var v => (.inr (.var v), [])
  | .fn params result row => (.inr (.fn params result row), [])
  | .tuple elems => (.inr (.tuple elems), [])

variable {args : List Ty} {t : Ty}

/-- Applying a type to arguments adds them to its spine. -/
theorem spine_applyTo (hne : args ≠ []) :
    (t.applyTo args).spine = (t.spine.1, t.spine.2 ++ args) := by
  rcases args with _ | ⟨a, as⟩
  · exact (hne rfl).elim
  · cases t <;> rfl

/-- Normal types with the same spine are equal. -/
theorem Normal.eq_of_spine {u : Ty} (ht : t.Normal) (hu : u.Normal) (h : t.spine = u.spine) :
    t = u := by
  cases ht <;> cases hu <;> simp_all [spine]

/-- An application determines its head and its last arguments. -/
theorem Normal.applyTo_inj {u : Ty} {args' : List Ty} (ht : t.Normal) (hu : u.Normal)
    (hlen : args.length = args'.length) (h : t.applyTo args = u.applyTo args') :
    t = u ∧ args = args' := by
  rcases args with _ | ⟨a, as⟩
  · obtain rfl := length_eq_zero_iff.mp hlen.symm
    exact ⟨h, rfl⟩
  · have hne : args' ≠ [] := by
      rintro rfl
      cases hlen
    -- the spines are equal as lists, and the last arguments are equally many
    have hspine := congrArg spine h
    rw [spine_applyTo (cons_ne_nil a as), spine_applyTo hne, Prod.mk.injEq] at hspine
    obtain ⟨hbefore, hargs⟩ := append_inj' hspine.2 hlen
    exact ⟨ht.eq_of_spine hu (Prod.ext hspine.1 hbefore), hargs⟩

/-! ### A variable within a larger type -/

theorem size_le_sizeAll {ts : List Ty} (h : t ∈ ts) : t.size ≤ sizeAll ts := by
  induction ts with
  | nil => cases h
  | cons u us ih =>
    rw [sizeAll]
    rcases mem_cons.mp h with rfl | h
    · omega
    · have := ih h
      omega

/-- An application is larger than its head and than each argument. -/
theorem size_lt_applyTo (head : Ty) (hne : args ≠ []) :
    head.size < (head.applyTo args).size ∧ ∀ t ∈ args, t.size < (head.applyTo args).size := by
  rcases args with _ | ⟨a, as⟩
  · exact (hne rfl).elim
  · have ha := a.size_pos
    have hargs {t : Ty} (ht : t ∈ a :: as) := size_le_sizeAll ht
    cases head <;>
      simp only [applyTo, isEmpty_cons, Bool.false_eq_true, if_false, size, sizeAll_append,
        sizeAll] at hargs ⊢ <;>
      exact ⟨by omega, fun t ht => by have := hargs ht; omega⟩

/-- What a normal type stands for is larger than what a variable within it stands for. -/
theorem Normal.size_lt_under {V : Valuation} {v : TypeVar} (ht : t.Normal)
    (hv : .type v ∈ t.occurrences) (hne : t ≠ .var v) : (V.types v).size < (t.under V).size := by
  -- the bound that includes the variable itself is what the induction passes on
  have hle {u : Ty} (hu : .type v ∈ u.occurrences)
      (ih : u ≠ .var v → (V.types v).size < (u.under V).size) :
      (V.types v).size ≤ (u.under V).size := by
    by_cases h : u = .var v
    · exact Nat.le_of_eq (by rw [h, under_var])
    · exact Nat.le_of_lt (ih h)
  have hall {ts : List Ty} (ih : ∀ t ∈ ts, .type v ∈ t.occurrences → t ≠ .var v →
      (V.types v).size < (t.under V).size) (h : ∃ t ∈ ts, .type v ∈ t.occurrences) :
      (V.types v).size ≤ sizeAll (ts.map (·.under V)) := by
    obtain ⟨t, ht, hvt⟩ := h
    exact Nat.le_trans (hle hvt (ih t ht hvt)) (size_le_sizeAll (mem_map_of_mem ht))
  induction ht with
  | prim p => simp [occurrences] at hv
  | var w =>
    obtain rfl : v = w := by simpa [occurrences] using hv
    exact (hne rfl).elim
  | named name h ih =>
    have := hall ih (mem_occurrences_named.mp hv)
    rw [under_named, size]
    omega
  | @app head a as hhead _ hargs ihHead ihArgs =>
    have hsome : (a :: as).map (·.under V) ≠ [] := by simp
    have hlt := size_lt_applyTo (head.under V) hsome
    rw [under_app]
    rcases mem_occurrences_app.mp hv with hv | ⟨t, ht, hv⟩
    · exact Nat.lt_of_le_of_lt (hle hv (ihHead hv)) hlt.1
    · exact Nat.lt_of_le_of_lt (hle hv (ihArgs t ht hv)) (hlt.2 _ (mem_map_of_mem ht))
  | fn row hparams hresult ihParams ihResult =>
    rw [under_fn, size]
    rcases mem_occurrences_fn.mp hv with hv | hv | ⟨e, -, hv⟩
    · have := hall ihParams hv
      omega
    · have := hle hv (ihResult hv)
      omega
    · cases hv
  | tuple h ih =>
    have := hall ih (mem_occurrences_tuple.mp hv)
    rw [under_tuple, size]
    omega

end Ty

/-! ## Rows whose tails bring no label twice -/

/-- The tail of the row stands for none of its labels. -/
def Row.Lacks (r : Row) (V : Valuation) : Prop :=
  ∀ e, r.tail = some e → ∀ l ∈ r.labels, l ∉ (V.row e).labels

namespace Row.Lacks

variable {V W : Valuation} {r : Row}

theorem of_tail_none (h : r.tail = none) : r.Lacks V := by
  intro e he
  rw [h] at he
  cases he

theorem congr (h : r.Lacks V) (hVW : ∀ e, r.tail = some e → V.row e = W.row e) : r.Lacks W := by
  intro e he l hl
  rw [← hVW e he]
  exact h e he l hl

/-- Resolving a tail that brings no label twice. -/
theorem under {S : Valuation} (h : r.Lacks V)
    (htail : ∀ e, r.tail = some e → (S.row e).Lacks V ∧ (S.row e).under V = V.row e) :
    (r.under S).Lacks V := by
  intro z hz l hl hlz
  rcases he : r.tail with _ | e
  · rw [Row.tail_under, he] at hz
    cases hz
  · rw [Row.tail_under_of_some he] at hz
    obtain ⟨hlacks, hunder⟩ := htail e he
    rw [Row.mem_labels_under_of_some he] at hl
    rcases hl with hl | hl
    · refine h e he l hl ?_
      rw [← hunder, Row.mem_labels_under_of_some hz]
      exact .inr hlz
    · exact hlacks z hz l hl hlz

end Row.Lacks

namespace Subst

variable {s : Subst} {V W : Valuation}

/-- Rows resolved by bindings that bring no label twice. -/
theorem Acyclic.lacks_row (hs : s.Acyclic) (hrows : s.RowsSorted) (hV : V.Models s)
    (hlacks : ∀ {e r}, s.effects.get? e = some r → r.Lacks V) (e : EffectVar) :
    (s.valuation.row e).Lacks V := by
  refine hs.induction (P := fun x => ∀ e, x = .effect e → (s.valuation.row e).Lacks V)
    (fun x ih e hx => ?_) (.effect e) e rfl
  subst hx
  rcases hr : s.effects.get? e with _ | r
  · rw [Valuation.row_of_none (effects_of_unbound hr)]
    exact fun _ _ l hl => (not_mem_nil hl).elim
  · rw [(hs.models hrows).effects hr]
    refine (hlacks hr).under fun f hf => ⟨ih (.effect f) (leadsTo_of_effects hr hf) f rfl, ?_⟩
    rw [← Valuation.row_andThen]
    exact hs.sameAt_of_models hrows hV (.effect f)

/-- Only the variables of the bindings matter for whether a valuation respects them. -/
theorem models_congr (hV : V.Models s) (h : ∀ x, s.Mentions x → V.AgreesAt W x) : W.Models s where
  types {v t} ht := by
    have hv : V.types v = W.types v := h (.type v) (.inl (by simp [Binds, ht]))
    rw [← hv, hV.types ht]
    exact Ty.under_congr fun y hy => h y (.inr ⟨_, leadsTo_of_types ht hy⟩)
  effects {e r} hr := by
    have he : V.row e = W.row e := (h (.effect e) (.inl (by simp [Binds, hr]))).sameAt
    rw [← he, hV.effects hr]
    exact Row.under_congr fun f hf => h (.effect f) (.inr ⟨_, leadsTo_of_effects hr hf⟩)

/-! ### Binding an unused effect variable -/

/-- Binding a variable that the bindings do not mention changes only what this variable stands
for. -/
theorem Acyclic.valuation_bindEffect (hs : s.Acyclic) {z : EffectVar} {row : Row}
    (hz : ¬ s.Mentions (.effect z))
    (hrow : ∀ e, row.tail = some e → e ≠ z ∧ ¬ s.Binds (.effect e)) {x : Var}
    (hx : x ≠ .effect z) : (s.bindEffect z row).valuation.AgreesAt s.valuation x := by
  have hs' := hs.bindEffect hrow
  revert hx
  refine hs.induction (P := fun x => x ≠ .effect z →
    (s.bindEffect z row).valuation.AgreesAt s.valuation x) (fun x ih hx => ?_) x
  -- no binding leads to the new variable, so the induction never meets it
  have ih' {y : Var} (hxy : s.LeadsTo x y) :=
    ih y hxy (by rintro rfl; exact hz (.inr ⟨x, hxy⟩))
  rcases x with v | e
  · change (s.bindEffect z row).valuation.types v = s.valuation.types v
    rcases ht : s.types.get? v with _ | t
    · rw [types_of_unbound ht, types_of_unbound (s := s.bindEffect z row) ht]
    · rw [hs.types_of_bound ht, hs'.types_of_bound (s := s.bindEffect z row) ht]
      exact Ty.under_congr fun y hy => ih' (leadsTo_of_types ht hy)
  · change (s.bindEffect z row).valuation.effects e = s.valuation.effects e
    have hne : e ≠ z := fun h => hx (by rw [h])
    have hget : (s.bindEffect z row).effects.get? e = s.effects.get? e := by
      simp [Subst.bindEffect, hne]
    rcases hr : s.effects.get? e with _ | r
    · rw [effects_of_unbound hr, effects_of_unbound (hget.trans hr)]
    · rw [hs.effects_of_bound hr, hs'.effects_of_bound (hget.trans hr)]
      exact congrArg some (Row.under_congr fun f hf => ih' (leadsTo_of_effects hr hf))

theorem Acyclic.valuation_bindEffect_self (hs : s.Acyclic) {z : EffectVar} {row : Row}
    (hrow : ∀ e, row.tail = some e → e ≠ z ∧ ¬ s.Binds (.effect e)) :
    (s.bindEffect z row).valuation.effects z = some row := by
  have hget : (s.bindEffect z row).effects.get? z = some row := by simp [Subst.bindEffect]
  rw [(hs.bindEffect hrow).effects_of_bound hget]
  refine congrArg some ?_
  rw [Row.under, Row.subst]
  rcases he : row.tail with _ | e
  · rfl
  · obtain ⟨hne, hunbound⟩ := hrow e he
    have hfree : (s.bindEffect z row).effects.get? e = none := by
      simpa [Subst.bindEffect, hne, Binds] using hunbound
    simp [effects_of_unbound hfree]

end Subst

namespace Unify

/-! ## Solutions -/

/-- A substitution that respects bindings, gives no bound row a label twice and does not use the
tails still to be drawn. -/
structure Explains (θ s : Subst) (f : Fresh) : Prop where
  acyclic : θ.Acyclic
  unmentioned : ∀ {e}, f.Upcoming (.effect e) → ¬ θ.Mentions (.effect e)
  models : θ.valuation.Models s
  lacks : ∀ {e r}, s.effects.get? e = some r → r.Lacks θ.valuation

/-- Two substitutions give a variable the same meaning unless it has been drawn meanwhile. -/
def AgreeOff (θ θ' : Subst) (f f' : Fresh) : Prop :=
  ∀ x, ¬ f.HandedOut f' x → θ'.valuation.AgreesAt θ.valuation x

variable {f : Fresh} {r : EffectVar} {s θ : Subst}

/-- A tail may be bound to a row that stands for the same. -/
theorem Explains.bindEffect (h : Explains θ s f) {row : Row}
    (hr : θ.valuation.row r = row.under θ.valuation) (hrow : row.Lacks θ.valuation) :
    Explains θ (s.bindEffect r row) f where
  acyclic := h.acyclic
  unmentioned := h.unmentioned
  models :=
    { types := fun ht => h.models.types ht
      effects := fun {e row'} he => by
        by_cases her : e = r
        · obtain rfl : row = row' := by simpa [Subst.bindEffect, her] using he
          rw [her, hr]
        · exact h.models.effects (by simpa [Subst.bindEffect, her] using he) }
  lacks {e row'} he := by
    by_cases her : e = r
    · obtain rfl : row = row' := by simpa [Subst.bindEffect, her] using he
      exact hrow
    · exact h.lacks (by simpa [Subst.bindEffect, her] using he)

/-- The drawn tail may be given any labels and the tail that a used variable stands for. -/
theorem Explains.extend (h : Explains θ s f) (hf : f.Distinct)
    (hs : ∀ e, f.Upcoming (.effect e) → ¬ s.Mentions (.effect e)) (hr : ¬ f.Upcoming (.effect r))
    (labels : List String) :
    ∃ θ', AgreeOff θ θ' f f.effectVar.2 ∧ Explains θ' s f.effectVar.2 ∧
      θ'.valuation.effects f.effectVar.1 = some ⟨labels, (θ.valuation.row r).tail⟩ := by
  have hz := f.upcoming_effectVar
  -- binding the drawn tail closes no cycle: what it leads to is neither bound nor still to be drawn
  have htail (e : EffectVar) (he : (θ.valuation.row r).tail = some e) :
      ¬ f.Upcoming (.effect e) ∧ ¬ θ.Binds (.effect e) := by
    have hmem : .effect e ∈ θ.valuation.image (.effect r) := by simp [Valuation.image, he]
    refine ⟨fun hup => ?_, (h.acyclic.mem_image hmem).2⟩
    rcases h.acyclic.mentions_of_mem_image hmem with heq | hmentions
    · exact hr (Var.effect.inj heq ▸ hup)
    · exact h.unmentioned hup hmentions
  let row : Row := ⟨labels, (θ.valuation.row r).tail⟩
  let θ' := θ.bindEffect f.effectVar.1 row
  have hrow (e : EffectVar) (he : row.tail = some e) :
      e ≠ f.effectVar.1 ∧ ¬ θ.Binds (.effect e) :=
    ⟨fun heq => (htail e he).1 (heq ▸ hz), (htail e he).2⟩
  have hagree {x : Var} (hx : x ≠ .effect f.effectVar.1) : θ'.valuation.AgreesAt θ.valuation x :=
    h.acyclic.valuation_bindEffect (h.unmentioned hz) hrow hx
  refine ⟨θ', fun x hx => hagree ?_,
    ⟨h.acyclic.bindEffect hrow, fun {e} he hmentions => ?_, ?_, fun {e row} he => ?_⟩,
    h.acyclic.valuation_bindEffect_self hrow⟩
  · rintro rfl
    exact hx hf.handedOut_effectVar
  · have he' := f.later_effectVar.upcoming he
    rcases hmentions with hbinds | ⟨y, hy⟩
    · rcases Subst.binds_bindEffect.mp hbinds with heq | hbinds
      · exact hf.handedOut_effectVar.2 (heq ▸ he)
      · exact h.unmentioned he' (.inl hbinds)
    · rcases Subst.leadsTo_bindEffect hy with ⟨-, e', he'', heq⟩ | hy
      · exact (htail e' he'').1 (heq ▸ he')
      · exact h.unmentioned he' (.inr ⟨y, hy⟩)
  · refine Subst.models_congr h.models fun x hx => (hagree ?_).symm
    rintro rfl
    exact hs _ hz hx
  · refine (h.lacks he).congr fun e' he' => ?_
    have hne : Var.effect e' ≠ .effect f.effectVar.1 := by
      intro heq
      exact hs _ hz (heq ▸ .inr ⟨_, Subst.leadsTo_of_effects he he'⟩)
    exact (hagree hne).symm.sameAt

section Rows

variable {a b : Row} {V : Valuation}

/-- Two open rows that stand for the same. -/
private theorem labels_iff_of_under_eq {r r' : EffectVar} (hta : a.tail = some r)
    (htb : b.tail = some r') (heq : a.under V = b.under V) (l : String) :
    l ∈ a.labels ∨ l ∈ (V.row r).labels ↔ l ∈ b.labels ∨ l ∈ (V.row r').labels := by
  rw [← Row.mem_labels_under_of_some hta, ← Row.mem_labels_under_of_some htb, heq]

private theorem tail_eq_of_under_eq {r r' : EffectVar} (hta : a.tail = some r)
    (htb : b.tail = some r') (heq : a.under V = b.under V) : (V.row r).tail = (V.row r').tail := by
  rw [← Row.tail_under_of_some hta, ← Row.tail_under_of_some htb, heq]

end Rows

private theorem explains_share {a b : Row} {r' : EffectVar} (hta : a.tail = some r)
    (htb : b.tail = some r')
    (ha : a.IsSorted) (hb : b.IsSorted) (hf : f.Distinct) (h : Explains θ s f)
    (hunused : ∀ e, f.Upcoming (.effect e) → ¬ s.Mentions (.effect e) ∧
      .effect e ∉ (Equation.rows a b).occurrences)
    (heq : a.under θ.valuation = b.under θ.valuation) (hla : a.Lacks θ.valuation)
    (hlb : b.Lacks θ.valuation) :
    ∃ θ', AgreeOff θ θ' f f.effectVar.2 ∧
      Explains θ' ((s.bindEffect r (.extensible (b.labelsNotIn a) f.effectVar.1)).bindEffect r'
        (.extensible (a.labelsNotIn b) f.effectVar.1)) f.effectVar.2 := by
  have hr : ¬ f.Upcoming (.effect r) :=
    fun h => (hunused r h).2 (by simp [Equation.occurrences, hta])
  have hr' : ¬ f.Upcoming (.effect r') :=
    fun h => (hunused r' h).2 (by simp [Equation.occurrences, htb])
  -- the drawn tail takes what the first tail stands for without the labels of the second row
  obtain ⟨θ', hagree, hexplains, hz⟩ := h.extend hf (fun e he => (hunused e he).1) hr
    ((θ.valuation.row r).labels.filter (· ∉ b.labels))
  have hsame {e : EffectVar} (he : ¬ f.Upcoming (.effect e)) :
      θ'.valuation.row e = θ.valuation.row e :=
    (hagree (.effect e) fun hx => he hx.1).sameAt
  have hlabels := labels_iff_of_under_eq hta htb heq
  have htails := tail_eq_of_under_eq hta htb heq
  have hla' := hla r hta
  have hlb' := hlb r' htb
  have hzlabels (l : String) : l ∈ (θ'.valuation.row f.effectVar.1).labels ↔
      l ∈ (θ.valuation.row r).labels ∧ l ∉ b.labels := by
    simp [Valuation.row_of_some hz]
  have hztail : (θ'.valuation.row f.effectVar.1).tail = (θ.valuation.row r).tail := by
    rw [Valuation.row_of_some hz]
  refine ⟨θ', hagree, (hexplains.bindEffect ?_ ?_).bindEffect ?_ ?_⟩
  -- the first tail stands for the labels that only the second row has and the drawn tail
  · rw [hsame hr]
    refine Row.eq_of_isSorted (Valuation.isSorted_row _ _)
      ((Row.isSorted_extensible _ _).under _) (fun l => ?_) ?_
    · rw [Row.mem_labels_under_of_some rfl, Row.mem_labels_extensible, Row.mem_labelsNotIn ha,
        hzlabels]
      have := hlabels l
      have := hla' l
      tauto
    · rw [Row.tail_under_of_some rfl, hztail]
  · rintro _ ⟨⟩ l hl hlz
    rw [Row.mem_labels_extensible, Row.mem_labelsNotIn ha] at hl
    exact ((hzlabels l).mp hlz).2 hl.1
  -- the second tail stands for the labels that only the first row has and the drawn tail
  · rw [hsame hr']
    refine Row.eq_of_isSorted (Valuation.isSorted_row _ _)
      ((Row.isSorted_extensible _ _).under _) (fun l => ?_) ?_
    · rw [Row.mem_labels_under_of_some rfl, Row.mem_labels_extensible, Row.mem_labelsNotIn hb,
        hzlabels]
      have := hlabels l
      have := hla' l
      have := hlb' l
      tauto
    · rw [Row.tail_under_of_some rfl, hztail, htails]
  · rintro _ ⟨⟩ l hl hlz
    rw [Row.mem_labels_extensible, Row.mem_labelsNotIn hb] at hl
    exact hla' l hl.1 ((hzlabels l).mp hlz).1

/-- A step between rows keeps a solution, up to the tail it draws. -/
theorem RowStep.explains {a b : Row} {s' : Subst} {f' : Fresh} (h : RowStep a b s f s' f')
    (ha : a.IsSorted) (hb : b.IsSorted) (hf : f.Distinct) (hθ : Explains θ s f)
    (hunused : ∀ e, f.Upcoming (.effect e) → ¬ s.Mentions (.effect e) ∧
      .effect e ∉ (Equation.rows a b).occurrences)
    (heq : a.under θ.valuation = b.under θ.valuation) (hla : a.Lacks θ.valuation)
    (hlb : b.Lacks θ.valuation) :
    ∃ θ', AgreeOff θ θ' f f' ∧ Explains θ' s' f' := by
  induction h with
  | refl | closed => exact ⟨θ, fun x _ => .refl _ x, hθ⟩
  | @close a b s f r hta htb hab =>
    refine ⟨θ, fun x _ => .refl _ x, hθ.bindEffect ?_ (.of_tail_none rfl)⟩
    -- the tail stands for none of the labels before it, so it stands for exactly the others
    have hlabels (l : String) : l ∈ a.labels ∨ l ∈ (θ.valuation.row r).labels ↔ l ∈ b.labels := by
      rw [← Row.mem_labels_under_of_some hta, heq, Row.under_of_tail_none htb]
    rw [Row.under_closed]
    refine Row.eq_of_isSorted (Valuation.isSorted_row _ _) (Row.isSorted_closed _) (fun l => ?_) ?_
    · rw [Row.mem_labels_closed, Row.mem_labelsNotIn ha]
      have := hlabels l
      have := hla r hta l
      tauto
    · rw [← Row.tail_under_of_some hta, heq, Row.under_of_tail_none htb, htb]
      rfl
  | @join a b s f r r' hta htb hne hab hba =>
    refine ⟨θ, fun x _ => .refl _ x, hθ.bindEffect ?_ fun _ _ l hl => (not_mem_nil hl).elim⟩
    rw [Row.labelsNotIn_eq_nil hb] at hab
    rw [Row.labelsNotIn_eq_nil ha] at hba
    refine Row.eq_of_isSorted (Valuation.isSorted_row _ _) (Valuation.isSorted_row _ _)
      (fun l => ?_) (tail_eq_of_under_eq hta htb heq)
    have := labels_iff_of_under_eq hta htb heq l
    have := hla r hta l
    have := hlb r' htb l
    have := hab l
    have := hba l
    change _ ↔ l ∈ (θ.valuation.row r').labels
    tauto
  | share hta htb hne => exact explains_share hta htb ha hb hf hθ hunused heq hla hlb
  | symm _ ih =>
    exact ih hb ha hf hθ (fun e he => ⟨(hunused e he).1, fun h => (hunused e he).2
      (mem_append.mpr (mem_append.mp h).symm)⟩) heq.symm hlb hla

end Unify

namespace Equation

/-- Types of one shape that stand for the same have parts that stand for the same. -/
theorem Decomposes.holds_parts {a b : Ty} {parts : List Equation} (h : Decomposes a b parts)
    {V : Valuation} (hV : ∀ v, (V.types v).Normal) (heq : a.under V = b.under V) :
    ∀ eq ∈ parts, eq.Holds V := by
  cases h with
  | named hlen =>
    rw [Ty.under_named, Ty.under_named, Ty.named.injEq] at heq
    exact (holds_zip V hlen).mpr heq.2
  | heads hsa hsb hlen =>
    -- the heads may stand for applications themselves, so equality is read from the end
    rw [hsa.under_eq, hsb.under_eq] at heq
    obtain ⟨hheads, hargs⟩ := (Ty.normal_under hV _).applyTo_inj (Ty.normal_under hV _)
      (by simpa using hlen) heq
    exact forall_mem_cons.mpr ⟨hheads, (holds_zip V hlen).mpr hargs⟩
  | fn hlen =>
    rw [Ty.under_fn, Ty.under_fn, Ty.fn.injEq] at heq
    refine forall_mem_append.mpr ⟨(holds_zip V hlen).mpr heq.1, ?_⟩
    exact forall_mem_cons.mpr ⟨heq.2.1, forall_mem_singleton.mpr heq.2.2⟩
  | tuple hlen =>
    rw [Ty.under_tuple, Ty.under_tuple, Ty.tuple.injEq] at heq
    exact (holds_zip V hlen).mpr heq

/-! ## Clashes have no solution -/

section Clash

variable {V : Valuation} {a : Ty}

/-- An application has at least its own arguments under every valuation. -/
private theorem length_le_of_under_app {head t : Ty} {as : List Ty}
    (h : (Ty.app head (a :: as)).under V = t) :
    (a :: as).length ≤ t.spine.2.length := by
  rw [← h, Ty.under_app, Ty.spine_applyTo (by simp), length_append, length_map]
  omega

private theorem under_app_ne_of_nil {head t : Ty} {as : List Ty} (ht : t.spine.2 = [])
    (h : (Ty.app head (a :: as)).under V = t) : False := by
  have hle := length_le_of_under_app h
  rw [ht] at hle
  exact Nat.not_succ_le_zero _ hle

/-- Types that cannot be taken apart never stand for the same. -/
private theorem under_ne_of_shapes {b : Ty} (ha : a.Normal) (hb : b.Normal) (hne : a ≠ b)
    (hbind : Unify.binding? a b = none) (hparts : decompose? a b = none) :
    a.under V ≠ b.under V := by
  intro heq
  -- only pairs of one shape and pairs with an application survive the comparison of constructors
  cases ha <;> cases hb <;>
    simp [Unify.binding?, decompose?, -Ty.under_app] at hbind hparts heq
  case prim.prim => exact hne (congrArg Ty.prim heq)
  case named.named => exact hparts heq.1 (by simpa using congrArg List.length heq.2)
  case fn.fn => exact hparts (by simpa using congrArg List.length heq.1)
  case tuple.tuple => exact hparts (by simpa using congrArg List.length heq)
  case app.app => split at hparts <;> cases hparts
  case app.named =>
    exact Nat.not_lt_of_le (length_le_of_under_app heq) (by simpa [Ty.spine] using hparts)
  case named.app =>
    exact Nat.not_lt_of_le (length_le_of_under_app heq.symm) (by simpa [Ty.spine] using hparts)
  case app.prim | app.fn | app.tuple => exact under_app_ne_of_nil rfl heq
  case prim.app | fn.app | tuple.app => exact under_app_ne_of_nil rfl heq.symm

/-- A clash between normal types or sorted rows has no solution that gives no tail a label that
stands before it. -/
theorem Clash.not_holds {eq : Equation} (h : eq.Clash) (hnormal : eq.Normal)
    (hsorted : eq.RowsSorted) (hlacks : ∀ r ∈ eq.rowsOf, r.Lacks V) : ¬ eq.Holds V := by
  induction h with
  | @occurs a b t v hab hne hv =>
    rw [mem_typeOccurrences] at hv
    -- a type is larger than a variable within it, whatever the variable stands for
    rcases hab with ⟨rfl, rfl⟩ | ⟨rfl, rfl⟩
    · intro heq
      have hlt := hnormal.2.size_lt_under (V := V) hv hne
      rw [← show V.types v = b.under V from heq] at hlt
      exact Nat.lt_irrefl _ hlt
    · intro heq
      have hlt := hnormal.1.size_lt_under (V := V) hv hne
      rw [show a.under V = V.types v from heq] at hlt
      exact Nat.lt_irrefl _ hlt
  | shapes hne hbind hparts => exact under_ne_of_shapes hnormal.1 hnormal.2 hne hbind hparts
  | @closedRowLacks a b hb hab =>
    intro heq
    refine hab ((Row.labelsNotIn_eq_nil (hsorted b (by simp [rowsOf]))).mpr fun l hl => ?_)
    have hunder : a.under V = b.under V := heq
    rw [Row.under_of_tail_none hb] at hunder
    rw [← hunder, Row.mem_labels_under]
    exact .inl hl
  | @sharedTail a b r hne ha hb =>
    intro heq
    -- the shared tail brings the same labels to both rows and none that is there already
    have hla := hlacks a (by simp [rowsOf]) r ha
    have hlb := hlacks b (by simp [rowsOf]) r hb
    refine hne (Row.eq_of_isSorted (hsorted a (by simp [rowsOf])) (hsorted b (by simp [rowsOf]))
      (fun l => ?_) (ha.trans hb.symm))
    have := Unify.labels_iff_of_under_eq ha hb heq l
    have := hla l
    have := hlb l
    tauto
  | @symm a b _ ih =>
    intro heq
    have hswap {r : Row} (hr : r ∈ (Equation.rows b a).rowsOf) :
        r ∈ (Equation.rows a b).rowsOf := by
      simpa [rowsOf, or_comm] using hr
    exact ih trivial (fun r hr => hsorted r (hswap hr)) (fun r hr => hlacks r (hswap hr)) heq.symm

end Clash

end Equation

namespace Unify

/-! ## Steps keep solutions -/

variable {f : Fresh} {s θ : Subst} {c : Config}

/-- Only tails are drawn. -/
theorem RowStep.handedOut {a b : Row} {s' : Subst} {f' : Fresh} (h : RowStep a b s f s' f')
    {x : Var} (hx : f.HandedOut f' x) : ∃ e, x = .effect e := by
  rcases x with v | e
  · refine (hx.2 ?_).elim
    induction h with
    | refl | closed | close | join | share => exact hx.1
    | symm _ ih => exact ih hx
  · exact ⟨e, rfl⟩

/-- A substitution that respects the bindings of a configuration and solves its equations without
giving a tail a label that stands before it. -/
structure Config.Solution (c : Config) (θ : Subst) : Prop where
  explains : Explains θ c.subst c.fresh
  normal : ∀ eq ∈ c.eqs, eq.Normal
  holds : ∀ eq ∈ c.eqs, eq.Holds θ.valuation
  lacks : ∀ eq ∈ c.eqs, ∀ r ∈ eq.rowsOf, r.Lacks θ.valuation

/-- No equation with a solution is a clash. -/
theorem Config.Solution.not_clash (h : c.Solution θ) (hc : c.Valid) {eq : Equation}
    (heq : eq ∈ c.eqs) : ¬ eq.Clash := fun hclash =>
  hclash.not_holds (h.normal eq heq) (hc.eqsSorted eq heq) (h.lacks eq heq) (h.holds eq heq)

private theorem solution_rows {a b : Row} {s' : Subst} {f' : Fresh} {rest : List Equation}
    (h : RowStep a b s f s' f') (hc : Config.Valid ⟨s, .rows a b :: rest, f⟩)
    (hθ : Config.Solution ⟨s, .rows a b :: rest, f⟩ θ) :
    ∃ θ', Config.Solution ⟨s', Equation.resolveAllRows s' rest, f'⟩ θ' ∧ AgreeOff θ θ' f f' := by
  have hvalid := (Step.reaches (.rows h) hc).valid
  have hhead {r : Row} (hr : r = a ∨ r = b) : r ∈ (Equation.rows a b).rowsOf := by
    simpa [Equation.rowsOf] using hr
  have hsorted {r : Row} (hr : r = a ∨ r = b) : r.IsSorted :=
    hc.eqsSorted _ (.head _) r (hhead hr)
  have hlacks {r : Row} (hr : r = a ∨ r = b) : r.Lacks θ.valuation :=
    hθ.lacks _ (.head _) r (hhead hr)
  obtain ⟨θ', hagree, hexplains⟩ := h.explains (hsorted (.inl rfl)) (hsorted (.inr rfl))
    hc.distinct hθ.explains
    (fun e he => ⟨hc.unmentioned he, fun hx => hc.unused he ⟨_, .head _, hx⟩⟩)
    (hθ.holds _ (.head _)) (hlacks (.inl rfl)) (hlacks (.inr rfl))
  -- the drawn tail does not occur in the equations, so nothing has changed for them
  have hsame {eq : Equation} (heq : eq ∈ rest) {x : Var} (hx : x ∈ eq.occurrences) :
      θ'.valuation.AgreesAt θ.valuation x := by
    refine hagree x fun hout => ?_
    obtain ⟨e, rfl⟩ := h.handedOut hout
    exact hc.unused hout.1 ⟨eq, .tail _ heq, hx⟩
  have hmodels := sameAt_rowsOnly hvalid.acyclic hvalid.substSorted hexplains.models
  -- resolving keeps the equations normal, solved and without repeated labels, in this order
  refine ⟨θ', ⟨hexplains, fun eq' heq' => ?_, fun eq' heq' => ?_, fun eq' heq' r' hr' => ?_⟩,
    hagree⟩
  · obtain ⟨eq, heq, rfl⟩ := mem_resolveAllRows.mp heq'
    exact Equation.normal_under (V := rowsOnly s') .var eq
  · obtain ⟨eq, heq, rfl⟩ := mem_resolveAllRows.mp heq'
    have hmem := mem_cons_of_mem (Equation.rows a b) heq
    rw [Equation.holds_under, (hc.eqsSorted eq hmem).holds_congr fun x _ => hmodels x,
      (hc.eqsSorted eq hmem).holds_congr fun x hx => (hsame heq hx).sameAt]
    exact hθ.holds eq hmem
  · obtain ⟨eq, heq, rfl⟩ := mem_resolveAllRows.mp heq'
    have hmem := mem_cons_of_mem (Equation.rows a b) heq
    rcases Equation.mem_rowsOf_under.mp hr' with ⟨r, hr, rfl⟩ | ⟨v, -, hr⟩
    · refine Row.Lacks.under ((hθ.lacks eq hmem r hr).congr fun e he => ?_) fun e _ => ⟨?_, ?_⟩
      · exact (hsame heq (Equation.tail_mem_occurrences hr he)).symm.sameAt
      · exact hvalid.acyclic.lacks_row hvalid.substSorted hexplains.models hexplains.lacks e
      · rw [← Valuation.row_andThen]
        exact hmodels (.effect e)
    · exact (not_mem_nil hr).elim

private theorem solution_bind {a b t : Ty} {v : TypeVar} {rest : List Equation}
    (hab : a = .var v ∧ b = t ∨ a = t ∧ b = .var v)
    (hθ : Config.Solution ⟨s, .types a b :: rest, f⟩ θ) :
    Config.Solution ⟨s.bindType v t, Equation.replaceAll v t rest, f⟩ θ := by
  have hhead := hθ.holds _ (.head _)
  have hvt : θ.valuation.types v = t.under θ.valuation := by
    rcases hab with ⟨rfl, rfl⟩ | ⟨rfl, rfl⟩
    · exact hhead
    · exact Eq.symm hhead
  have htnormal : t.Normal := normal_of_sides hab (hθ.normal _ (.head _))
  have htlacks {r : Row} (hr : r ∈ t.rows) : r.Lacks θ.valuation := by
    refine hθ.lacks _ (.head _) r ?_
    rcases hab with ⟨rfl, rfl⟩ | ⟨rfl, rfl⟩
    · exact mem_append_right _ hr
    · exact mem_append_left _ hr
  refine ⟨⟨hθ.explains.acyclic, hθ.explains.unmentioned, ⟨fun {w u} hw => ?_,
    hθ.explains.models.effects⟩, hθ.explains.lacks⟩, fun eq' heq' => ?_, fun eq' heq' => ?_,
    fun eq' heq' r' hr' => ?_⟩
  · by_cases hwv : w = v
    · obtain rfl : t = u := by simpa [Subst.bindType, hwv] using hw
      rw [hwv, hvt]
    · exact hθ.explains.models.types (by simpa [Subst.bindType, hwv] using hw)
  · obtain ⟨eq, heq, rfl⟩ := mem_replaceAll.mp heq'
    exact Equation.normal_under (normal_replacing htnormal) eq
  · obtain ⟨eq, heq, rfl⟩ := mem_replaceAll.mp heq'
    rw [Equation.holds_under, replacing_andThen hvt]
    exact hθ.holds eq (.tail _ heq)
  · obtain ⟨eq, heq, rfl⟩ := mem_replaceAll.mp heq'
    rcases Equation.mem_rowsOf_under.mp hr' with ⟨r, hr, rfl⟩ | ⟨w, -, hr⟩
    -- replacing a type variable leaves the rows of the equation as they are
    · have hunder : r.under (replacing v t) = r := by
        rw [Row.under, Row.subst]
        split <;> rfl
      rw [hunder]
      exact hθ.lacks eq (.tail _ heq) r hr
    · change r' ∈ (if w = v then t else .var w).rows at hr
      split at hr
      · exact htlacks hr
      · exact (not_mem_nil hr).elim

/-- A step keeps a solution, up to the tail it draws. -/
theorem Step.solution {c' : Config} (h : Step c c') (hc : c.Valid) (hθ : c.Solution θ) :
    ∃ θ', c'.Solution θ' ∧ AgreeOff θ θ' c.fresh c'.fresh := by
  cases h with
  | rows h => exact solution_rows h hc hθ
  | identical =>
    exact ⟨θ, ⟨hθ.explains, fun eq heq => hθ.normal eq (.tail _ heq),
      fun eq heq => hθ.holds eq (.tail _ heq),
      fun eq heq => hθ.lacks eq (.tail _ heq)⟩, fun x _ => .refl _ x⟩
  | bind hab hv => exact ⟨θ, solution_bind hab hθ, fun x _ => .refl _ x⟩
  | @decompose a b s f parts rest h =>
    have hnormal := hθ.normal _ (.head _)
    have hparts := h.holds_parts θ.normal_valuation (hθ.holds _ (.head _))
    refine ⟨θ, ⟨hθ.explains, forall_mem_append.mpr ⟨h.normal hnormal.1 hnormal.2, ?_⟩,
      forall_mem_append.mpr ⟨hparts, ?_⟩, forall_mem_append.mpr ⟨?_, ?_⟩⟩,
      fun x _ => .refl _ x⟩
    · exact fun eq heq => hθ.normal eq (.tail _ heq)
    · exact fun eq heq => hθ.holds eq (.tail _ heq)
    · exact fun eq heq r hr => hθ.lacks _ (.head _) r (h.mem_rowsOf heq hr)
    · exact fun eq heq => hθ.lacks eq (.tail _ heq)

/-- A run keeps a solution, up to the tails it draws. -/
theorem Steps.solution {c' : Config} (h : Steps c c') (hc : c.Valid) (hθ : c.Solution θ) :
    ∃ θ', c'.Solution θ' ∧ AgreeOff θ θ' c.fresh c'.fresh := by
  induction h with
  | refl => exact ⟨θ, hθ, fun x _ => .refl _ x⟩
  | tail hsteps hstep ih =>
    obtain ⟨θ', hθ', hagree⟩ := ih
    have hreach := Steps.reaches hsteps hc
    -- a variable that is not drawn on the whole run is drawn on neither part of it
    obtain ⟨θ'', hθ'', hagree'⟩ := hstep.solution hreach.valid hθ'
    have hlater := (hstep.reaches hreach.valid).later
    refine ⟨θ'', hθ'', fun x hx => (hagree' x fun h => ?_).trans (hagree x fun h => ?_)⟩
    · exact hx (h.earlier hreach.later)
    · exact hx (h.later hlater)

/-- A solution of two types is a solution of the configuration that unification starts from. -/
theorem solution_start {a b : Ty} (hθ : θ.Acyclic)
    (hunused : ∀ {e}, f.Upcoming (.effect e) → ¬ θ.Mentions (.effect e))
    (heq : a.under θ.valuation = b.under θ.valuation)
    (hlacks : ∀ r, r ∈ a.rows ∨ r ∈ b.rows → r.Lacks θ.valuation) :
    (start .empty (.types a b) f).Solution θ := by
  refine ⟨⟨hθ, hunused, ⟨fun ht => (nomatch ht), fun hr => (nomatch hr)⟩, fun hr => (nomatch hr)⟩,
    forall_mem_singleton.mpr ?_, forall_mem_singleton.mpr ?_,
    forall_mem_singleton.mpr fun r' hr' => ?_⟩
  · exact Equation.normal_under Subst.empty.normal_valuation _
  · rw [Equation.holds_under, Subst.valuation_empty, Valuation.self_andThen]
    exact heq
  · rcases Equation.mem_rowsOf_under.mp hr' with ⟨r, hr, rfl⟩ | ⟨v, -, hr⟩
    · rw [Subst.valuation_empty, Row.under_self]
      exact hlacks r (mem_append.mp hr)
    · exact (not_mem_nil hr).elim

end Unify

end RowTyping
