import Mathlib
import RowTyping.Proofs.Unify.Solves

/-!
# Unification makes finitely many calls

Unifying two types of one shape means unifying their parts, one after the other, each under the
bindings found by then (`Unify.types_eq_body`). The parts are resolved again every time, so they may
be much larger than the types they were taken from. But then a variable has been bound and is gone:
with every call, the number of type variables of the resolved types gets smaller, or it stays and
their size gets smaller (`Unify.Makes.measure_lt`). So a call leads to finitely many others.

Resolving a type has to end as well, and for that no binding may have a cycle: this holds of all
substitutions on the way if the tails to be drawn are not in use (`Unify.Makes.ready`).
-/

namespace RowTyping

open List

namespace Subst

variable {s : Subst} {t : Ty} {P : Var → Prop}

/-- What a type over variables of a closed set resolves to has unbound variables of that set
only. -/
theorem ClosedOn.mem_apply (h : s.ClosedOn P) (hs : s.Acyclic) (ht : ∀ x ∈ t.occurrences, P x)
    {x : Var} (hx : x ∈ (s.apply t).occurrences) : P x ∧ ¬ s.Binds x := by
  obtain ⟨y, hy, hx⟩ := mem_occurrences_apply.mp hx
  obtain ⟨hpath, hunbound⟩ := hs.mem_image hx
  exact ⟨h.of_path (ht y hy) hpath, hunbound⟩

/-- Resolving a type without bound type variables makes it no larger. -/
theorem size_apply_le (h : ∀ v, .type v ∈ t.occurrences → ¬ s.Binds (.type v)) :
    (s.apply t).size ≤ t.size := by
  have hrows : s.apply t = t.under ⟨.var, s.valuation.effects⟩ := by
    refine Ty.under_congr (V := s.valuation) fun x hx => ?_
    rcases x with v | e
    · exact types_of_unbound (by simpa [Binds] using h v hx)
    · rfl
  rw [hrows]
  exact Ty.size_subst_var_le _ t

end Subst

namespace Unify

variable {s s' : Subst} {a b : Ty} {f : Fresh} {u u' : Unifier}

theorem RowStep.upcomingTypes_eq {a b : Row} {f' : Fresh} (h : RowStep a b s f s' f') :
    f'.upcomingTypes = f.upcomingTypes := by
  induction h with
  | refl | closed | close | join | share => rfl
  | symm _ ih => exact ih

/-- Unification draws no type variables. -/
theorem Steps.upcomingTypes_eq {c c' : Config} (h : Steps c c') :
    c'.fresh.upcomingTypes = c.fresh.upcomingTypes := by
  induction h with
  | refl => rfl
  | tail _ hstep ih =>
    refine Eq.trans ?_ ih
    cases hstep with
    | rows h => exact h.upcomingTypes_eq
    | identical | bind | decompose => rfl

/-- Unifying resolved equations in turn is a run from them. -/
theorem steps_of_inTurn {eqs : List Equation} (hc : Config.Valid ⟨s, eqs, u.fresh⟩)
    (hnormal : ∀ eq ∈ eqs, eq.Normal) (h : inTurn s eqs u = .ok s' u') :
    Steps ⟨s, eqs, u.fresh⟩ ⟨s', [], u'.fresh⟩ := by
  have hsame := hc.map_under_eq hnormal
  have hrun := solve_eq_inTurn (u := u) eqs (hsame.symm ▸ hc)
  rw [hsame, h] at hrun
  exact (solves_of_solve hrun).steps

/-! ## Calls -/

/-- A call of unification: the types, the substitution it is made under and the state of the
unifier. -/
structure Call where
  subst : Subst
  expected : Ty
  actual : Ty
  unifier : Unifier

/-- How many different type variables the resolved types have, and how many nodes without their
rows. -/
def Call.measure (c : Call) : Nat × Nat :=
  let expected := c.subst.apply c.expected
  let actual := c.subst.apply c.actual
  ((distinct (expected.typeOccurrences ++ actual.typeOccurrences)).length,
    expected.size + actual.size)

/-- The call is made with what unification relies on. -/
def Call.Ready (c : Call) : Prop :=
  Unify.Ready c.subst (.types c.expected c.actual) c.unifier.fresh

/-- The first call makes the second one: it resolves its types, takes them apart and unifies the
parts in turn. -/
inductive Makes : Call → Call → Prop
  | part {s s' : Subst} {a b x y : Ty} {u u' : Unifier} {shape : Shape}
    {before after : List Equation} (hne : s.apply a ≠ s.apply b)
    (hparts : Equation.decompose? (s.apply a) (s.apply b) =
      some (shape, before ++ .types x y :: after))
    (hbefore : inTurn s before (u.note (.decompose shape (s.apply a) (s.apply b))) = .ok s' u') :
    Makes ⟨s, a, b, u⟩ ⟨s', x, y, u'⟩

/-- A part of the types is taken up after a run from the parts before it. -/
theorem Ready.steps_before {shape : Shape} {before after : List Equation} {eq : Equation}
    {event : UnifyEvent} (h : Ready s (.types a b) u.fresh)
    (hparts : Equation.decompose? (s.apply a) (s.apply b) = some (shape, before ++ eq :: after))
    (hbefore : inTurn s before (u.note event) = .ok s' u') :
    Config.Valid ⟨s, before, u.fresh⟩ ∧ Steps ⟨s, before, u.fresh⟩ ⟨s', [], u'.fresh⟩ := by
  obtain ⟨hvalid, hnormal⟩ := h.parts hparts
  have hfront : Config.Valid ⟨s, before, u.fresh⟩ := hvalid.of_subset (subset_append_left _ _)
  have hsteps := steps_of_inTurn (u := u.note event) (by rwa [Unifier.fresh_note])
    (fun eq heq => hnormal eq (mem_append_left _ heq)) hbefore
  rw [Unifier.fresh_note] at hsteps
  exact ⟨hfront, hsteps⟩

namespace Makes

variable {c c' : Call}

/-- A call in order makes only calls in order. -/
theorem ready (h : Makes c c') (hc : c.Ready) : c'.Ready := by
  cases h with
  | @part s s' a b x y u u' shape before after hne hparts hbefore =>
    obtain ⟨hfront, hsteps⟩ := hc.steps_before hparts hbefore
    have hreach := Steps.reaches hsteps hfront
    have hvalid := (hc.parts hparts).1
    have hpart : Equation.types x y ∈ before ++ .types x y :: after :=
      mem_append_right _ (.head _)
    exact
      { acyclic := hreach.valid.acyclic
        substSorted := hreach.valid.substSorted
        eqSorted := hvalid.eqsSorted _ hpart
        distinct := hreach.valid.distinct
        unused := fun he => ⟨hreach.valid.unmentioned he, fun hx =>
          hvalid.unused (hreach.later.upcoming he) ⟨_, hpart, hx⟩⟩ }

/-- A call makes only calls with fewer type variables, or with as many and smaller types. -/
theorem measure_lt (h : Makes c c') (hc : c.Ready) :
    Prod.Lex (· < ·) (· < ·) c'.measure c.measure := by
  have hacyclic := (h.ready hc).acyclic
  cases h with
  | @part s s' a b x y u u' shape before after hne hparts hbefore =>
    obtain ⟨hfront, hsteps⟩ := hc.steps_before hparts hbefore
    have hdecomposes := Equation.decomposes_of_eq_some hparts
    -- type variables of the resolved types, and any effect variable
    let P (z : Var) : Prop := ∀ v, z = .type v → .type v ∈ (s.apply a).occurrences ++
      (s.apply b).occurrences
    have hgrows : s.Grows s' P := by
      refine (Steps.reaches hsteps hfront).grows.mono ?_
      rintro _ (⟨eq, heq, hv⟩ | ⟨hup, hdrawn⟩) v rfl
      · exact hdecomposes.mem_occurrences (mem_append_left _ heq) hv
      · refine absurd ?_ hdrawn
        simpa only [Fresh.Upcoming, hsteps.upcomingTypes_eq] using hup
    have hclosed : s.ClosedOn P := by
      rintro (v | e) z hx hxz
      · exact absurd hxz.binds (hc.valid.resolved ⟨_, .head _, hx v rfl⟩)
      · rintro v rfl
        obtain ⟨_, _, heq, -⟩ | ⟨_, _, _, -, -, -, heq⟩ := Subst.leadsTo_iff.mp hxz <;> cases heq
    have hpart (v : TypeVar) (hv : .type v ∈ x.occurrences ++ y.occurrences) :
        .type v ∈ (s.apply a).occurrences ++ (s.apply b).occurrences :=
      hdecomposes.mem_occurrences (mem_append_right _ (.head _)) hv
    have hvars (v : TypeVar)
        (hv : v ∈ (s'.apply x).typeOccurrences ++ (s'.apply y).typeOccurrences) :
        v ∈ (s.apply a).typeOccurrences ++ (s.apply b).typeOccurrences ∧ ¬ s'.Binds (.type v) := by
      have hclosed' := hclosed.grows hgrows
      simp only [mem_append, Equation.mem_typeOccurrences] at hv ⊢
      rcases hv with hv | hv
      · obtain ⟨hP, hunbound⟩ := hclosed'.mem_apply hacyclic
          (fun z hz v hzv => hpart v (mem_append_left _ (hzv ▸ hz))) hv
        exact ⟨by simpa using hP v rfl, hunbound⟩
      · obtain ⟨hP, hunbound⟩ := hclosed'.mem_apply hacyclic
          (fun z hz v hzv => hpart v (mem_append_right _ (hzv ▸ hz))) hv
        exact ⟨by simpa using hP v rfl, hunbound⟩
    by_cases hbound : ∃ v ∈ (s.apply a).typeOccurrences ++ (s.apply b).typeOccurrences,
      s'.Binds (.type v)
    · -- the bound variable is gone from the resolved parts
      obtain ⟨v, hv, hbinds⟩ := hbound
      exact .left _ _ (length_distinct_lt (fun w hw => (hvars w hw).1) hv
        fun hmem => (hvars v hmem).2 hbinds)
    · -- nothing has been bound, so the parts are as they were
      have hunbound (v : TypeVar) (hv : .type v ∈ x.occurrences ++ y.occurrences) :
          ¬ s'.Binds (.type v) := by
        refine fun hbinds => hbound ⟨v, ?_, hbinds⟩
        simpa only [mem_append, Equation.mem_typeOccurrences] using hpart v hv
      have hx : (s'.apply x).size ≤ x.size :=
        Subst.size_apply_le fun v hv => hunbound v (mem_append_left _ hv)
      have hy : (s'.apply y).size ≤ y.size :=
        Subst.size_apply_le fun v hv => hunbound v (mem_append_right _ hv)
      have hsize := Equation.totalSize_decompose_lt hparts
      rw [Equation.totalSize_append, Equation.totalSize, Equation.size] at hsize
      refine Prod.Lex.right' _ (length_distinct_le fun v hv => (hvars v hv).1) ?_
      simp only
      omega

/-- A call is determined by the parts unified before it. -/
theorem finite (c : Call) : {c' | Makes c c'}.Finite := by
  obtain ⟨s, a, b, u⟩ := c
  rcases hd : Equation.decompose? (s.apply a) (s.apply b) with _ | ⟨shape, parts⟩
  · refine Set.Finite.subset Set.finite_empty fun c' h => ?_
    cases h with
    | part _ hparts => simp [hd] at hparts
  · refine Set.Finite.subset (Set.Finite.biUnion (s := {before | before ∈ parts.inits})
      (t := fun before => {c' | ∃ after, parts = before ++ .types c'.expected c'.actual :: after ∧
        inTurn s before (u.note (.decompose shape (s.apply a) (s.apply b))) =
          .ok c'.subst c'.unifier})
      (finite_toSet _) fun before _ => Set.Subsingleton.finite ?_) fun c' h => ?_
    · rintro ⟨s₁, x₁, y₁, u₁⟩ ⟨after₁, hsplit₁, hrun₁⟩ ⟨s₂, x₂, y₂, u₂⟩ ⟨after₂, hsplit₂, hrun₂⟩
      have hsame := append_cancel_left (hsplit₁.symm.trans hsplit₂)
      have hresult := hrun₁.symm.trans hrun₂
      simp_all
    · cases h with
      | @part _ s' _ _ x y _ u' shape' before after _ hparts hbefore =>
        obtain ⟨rfl, rfl⟩ : shape = shape' ∧ parts = before ++ .types x y :: after := by
          simpa [hd] using hparts
        exact Set.mem_biUnion (x := before) ((mem_inits _ _).mpr (prefix_append _ _))
          ⟨after, rfl, hbefore⟩

end Makes

/-- A call leads to finitely many others. -/
theorem finite_calls {c : Call} (hc : c.Ready) :
    {c' | Relation.ReflTransGen Makes c c'}.Finite := by
  -- by induction on the measure: the call itself, and what each of those it makes leads to
  induction hn : c.measure using (WellFounded.prod_lex Nat.lt_wfRel.wf Nat.lt_wfRel.wf).induction
    generalizing c with
  | _ n ih =>
    subst hn
    have hrest : (⋃ c' ∈ {c' | Makes c c'}, {c'' | Relation.ReflTransGen Makes c' c''}).Finite :=
      (Makes.finite c).biUnion fun c' h => ih c'.measure (h.measure_lt hc) (h.ready hc) rfl
    refine ((Set.finite_singleton c).union hrest).subset fun c' h => ?_
    rcases Relation.ReflTransGen.cases_head h with rfl | ⟨c₁, h₁, h⟩
    · exact .inl rfl
    · exact .inr (Set.mem_biUnion h₁ h)

theorem Call.Ready.of_makes {c c' : Call} (hc : c.Ready) (h : Relation.ReflTransGen Makes c c') :
    c'.Ready := by
  induction h with
  | refl => exact hc
  | tail _ h ih => exact h.ready ih

/-- The bindings have no cycle, so applying the substitution ends, and what it makes of a bound
variable is what it makes of its binding. -/
structure Applicable (s : Subst) : Prop where
  acyclic : s.Acyclic
  types : ∀ v t, s.types.get? v = some t → s.apply (.var v) = s.apply t
  rows : ∀ e r, s.effects.get? e = some r → s.applyRow (.ofVar e) = s.applyRow r

theorem Ready.applicable {eq : Equation} (h : Ready s eq f) : Applicable s where
  acyclic := h.acyclic
  types _ _ ht := (h.acyclic.models h.substSorted).types ht
  rows _ _ hr := (h.acyclic.models h.substSorted).effects hr

/-- Unification ends, if the tails to be drawn are distinct and unused. It leads to finitely many
calls, and each of them has fewer different type variables in its resolved types than the call that
makes it, or as many and smaller types. Every substitution reached on the way is acyclic, so
resolving the types ends too, and what a call does is what the calls do that it is made of. -/
theorem unification_terminates (hs : s.Acyclic) (hrows : s.RowsSorted) (ha : a.RowsSorted)
    (hb : b.RowsSorted) (hdistinct : u.fresh.Distinct)
    (hunused : ∀ e, u.fresh.Upcoming (.effect e) →
      ¬ s.Mentions (.effect e) ∧ .effect e ∉ a.occurrences ∧ .effect e ∉ b.occurrences) :
    {c | Relation.ReflTransGen Makes ⟨s, a, b, u⟩ c}.Finite ∧
      ∀ c, Relation.ReflTransGen Makes ⟨s, a, b, u⟩ c → Applicable c.subst ∧
        types c.subst c.expected c.actual c.unifier = body c.subst c.expected c.actual c.unifier ∧
        ∀ c', Makes c c' → Prod.Lex (· < ·) (· < ·) c'.measure c.measure := by
  have hready : Ready s (.types a b) u.fresh :=
    { acyclic := hs
      substSorted := hrows
      eqSorted := fun r hr => (mem_append.mp hr).elim (ha r) (hb r)
      distinct := hdistinct
      unused := fun he => ⟨(hunused _ he).1, fun hx =>
        (mem_append.mp hx).elim (hunused _ he).2.1 (hunused _ he).2.2⟩ }
  refine ⟨finite_calls (c := ⟨s, a, b, u⟩) hready, fun c hc => ?_⟩
  have hcall := Call.Ready.of_makes (c := ⟨s, a, b, u⟩) hready hc
  exact ⟨hcall.applicable, types_eq_body hcall, fun c' h => h.measure_lt hcall⟩

/-! ### A part that grows -/

/-- `(a, (a, a, a))`. -/
private def copies : Ty :=
  .tuple [.var ⟨0⟩, .tuple [.var ⟨0⟩, .var ⟨0⟩, .var ⟨0⟩]]

/-- `((b, b, b), c)`. -/
private def triple : Ty :=
  .tuple [.tuple [.var ⟨1⟩, .var ⟨1⟩, .var ⟨1⟩], .var ⟨2⟩]

/-- The call for the first elements of the two pairs has bound `a`, so the call for the second
elements is about larger types, with fewer variables. -/
theorem unification_terminates_copies :
    Subst.empty.Acyclic ∧ Fresh.Distinct ⟨.standalone 3 0, {}⟩ ∧
      (Call.mk .empty copies triple ⟨⟨.standalone 3 0, {}⟩, #[], false⟩).measure = (3, 12) ∧
      ∃ c, Makes ⟨.empty, copies, triple, ⟨⟨.standalone 3 0, {}⟩, #[], false⟩⟩ c ∧
      c.measure = (2, 14) ∧
        Prod.Lex (· < ·) (· < ·) c.measure (3, 12) ∧ Applicable c.subst ∧
        types c.subst c.expected c.actual c.unifier =
          body c.subst c.expected c.actual c.unifier := by
  have hmakes : Makes ⟨.empty, copies, triple, ⟨⟨.standalone 3 0, {}⟩, #[], false⟩⟩
      ⟨Subst.empty.bindType ⟨0⟩ (.tuple [.var ⟨1⟩, .var ⟨1⟩, .var ⟨1⟩]),
        .tuple [.var ⟨0⟩, .var ⟨0⟩, .var ⟨0⟩], .var ⟨2⟩, ⟨⟨.standalone 3 0, {}⟩, #[], false⟩⟩ := by
    have hparts : Equation.decompose? (Subst.empty.apply copies) (Subst.empty.apply triple) =
        some (.tuples, [.types (.var ⟨0⟩) (.tuple [.var ⟨1⟩, .var ⟨1⟩, .var ⟨1⟩])] ++
          .types (.tuple [.var ⟨0⟩, .var ⟨0⟩, .var ⟨0⟩]) (.var ⟨2⟩) :: []) := by decide
    exact .part (by decide) hparts (by cbv)
  obtain ⟨-, hcalls⟩ := unification_terminates (a := copies) (b := triple)
    (u := ⟨⟨.standalone 3 0, {}⟩, #[], false⟩) Subst.acyclic_empty Subst.rowsSorted_empty
    (fun r hr => by simp [copies, Ty.rows, Ty.rowsAll] at hr)
    (fun r hr => by simp [triple, Ty.rows, Ty.rowsAll] at hr) (Fresh.distinct_standalone _ _ _)
    fun e _ => ⟨Subst.not_mentions_empty, by simp [copies, Ty.occurrences, Ty.occurrencesAll],
      by simp [triple, Ty.occurrences, Ty.occurrencesAll]⟩
  obtain ⟨happlicable, hbody, -⟩ := hcalls _ (.single hmakes)
  exact ⟨Subst.acyclic_empty, Fresh.distinct_standalone _ _ _, by decide, _, hmakes, by decide,
    (hcalls _ .refl).2.2 _ hmakes, happlicable, hbody⟩

/-! ### A tail that is in use -/

/-- A pair of functions with the given tail, the first one with a label as well. -/
private def functionPair (label : String) (e : EffectVar) : Ty :=
  .tuple [.fn [.int] .int ⟨[label], some e⟩, .fn [.int] .int (.ofVar e)]

/-- The unifier draws the tail `e0` next. -/
private def drawsUsed : Unifier := ⟨⟨.standalone 0 0, {}⟩, #[], false⟩

/-- Without the condition on the supply, unification need not end. The rows of the first functions
meet in a tail that is drawn for them. If it is the tail of one of them, this tail is bound to a row
that ends in itself, and the call for the second functions has to resolve it. -/
theorem used_tail_makes_cycle :
    Subst.empty.Acyclic ∧ ∃ c,
      Makes ⟨.empty, functionPair "IO" ⟨0⟩, functionPair "State" ⟨1⟩, drawsUsed⟩ c ∧
      c.expected = .fn [.int] .int (.ofVar ⟨0⟩) ∧
      c.subst.effects.get? ⟨0⟩ = some (.extensible ["State"] ⟨0⟩) ∧ ¬ c.subst.Acyclic := by
  have hmakes : Makes ⟨.empty, functionPair "IO" ⟨0⟩, functionPair "State" ⟨1⟩, drawsUsed⟩
      ⟨(Subst.empty.bindEffect ⟨0⟩ (.extensible ["State"] ⟨0⟩)).bindEffect ⟨1⟩
        (.extensible ["IO"] ⟨0⟩),
        .fn [.int] .int (.ofVar ⟨0⟩), .fn [.int] .int (.ofVar ⟨1⟩),
          ⟨⟨.standalone 0 1, {}⟩, #[], false⟩⟩ := by
    have hparts : Equation.decompose? (Subst.empty.apply (functionPair "IO" ⟨0⟩))
        (Subst.empty.apply (functionPair "State" ⟨1⟩)) =
        some (.tuples, [.types (.fn [.int] .int ⟨["IO"], some ⟨0⟩⟩)
          (.fn [.int] .int ⟨["State"], some ⟨1⟩⟩)] ++
          .types (.fn [.int] .int (.ofVar ⟨0⟩)) (.fn [.int] .int (.ofVar ⟨1⟩)) :: []) := by decide
    exact .part (by decide) hparts (by cbv)
  have hbound : ((Subst.empty.bindEffect ⟨0⟩ (.extensible ["State"] ⟨0⟩)).bindEffect ⟨1⟩
      (.extensible ["IO"] ⟨0⟩)).effects.get? ⟨0⟩ = some (.extensible ["State"] ⟨0⟩) := by decide
  exact ⟨Subst.acyclic_empty, _, hmakes, rfl, hbound, fun hacyclic =>
    hacyclic _ (.single (Subst.leadsTo_of_effects hbound rfl))⟩

end Unify

end RowTyping
