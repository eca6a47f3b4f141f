import RowTyping.Proofs.Infer.Generalize
import RowTyping.Proofs.Infer.Pattern
import RowTyping.Proofs.Infer.Resolve

/-!
# Where obligations go

`Infer.visits` lists the expressions that an inference comes to, each with the state it is inferred
in, and `Infer.raisedAt` the obligations it raises there: the requirements of the schemes that
variables refer to. An obligation stays pending until the end of the inference, or the scheme of a
local definition takes it over as a requirement (`Infer.Holds`). On the way its type may be replaced
by what it stands for, and tails may be closed, but its trait and the head of its type remain
(`Given.Like`). In an inference that succeeds every visit is one that succeeds, and the obligations
it leaves are accounted for at the end (`Infer.Conserves`).
-/

namespace RowTyping

open List

/-! ## Requirements that are alike -/

namespace Ty

variable {V W : Valuation}

/-- The head of a type with arguments depends on the type and on whether there are arguments. -/
theorem headConstructor?_applyTo (t : Ty) {args args' : List Ty} (h : args.length = args'.length) :
    (t.applyTo args).headConstructor? = (t.applyTo args').headConstructor? := by
  rcases args with _ | ⟨a, as⟩
  · obtain rfl := length_eq_zero_iff.mp h.symm
    rfl
  · rcases args' with _ | ⟨a', as'⟩
    · cases h
    · cases t <;> rfl

/-- Rows do not matter for the head of a type. -/
theorem headConstructor?_under_congr (hV : V.types = W.types) (t : Ty) {args args' : List Ty}
    (h : args.length = args'.length) :
    ((t.under V).applyTo args).headConstructor? = ((t.under W).applyTo args').headConstructor? := by
  induction t generalizing args args' with
  | prim p => exact headConstructor?_applyTo (.prim p) h
  | var v =>
    rw [under_var, under_var, hV]
    exact headConstructor?_applyTo _ h
  | app head ts ih =>
    rw [under_app, under_app, applyTo_applyTo, applyTo_applyTo]
    exact ih (by simp [h])
  | named | fn | tuple =>
    simp only [under_named, under_fn, under_tuple]
    rcases args with _ | ⟨a, as⟩
    · obtain rfl := length_eq_zero_iff.mp h.symm
      rfl
    · rcases args' with _ | ⟨a', as'⟩
      · cases h
      · rfl

/-- Closing tails does not change the head of a type. -/
theorem headConstructor?_closing (tails : List EffectVar) (t : Ty) (V : Valuation) :
    (((Generalize.closing tails).apply t).under V).headConstructor? =
      (t.under V).headConstructor? := by
  have htypes : ((Generalize.closing tails).valuation.andThen V).types = V.types := by
    funext v
    change ((Generalize.closing tails).valuation.types v).under V = V.types v
    rw [Subst.types_of_unbound (Generalize.types_closing tails v), under_var]
  rw [Subst.apply_eq_under, ← under_andThen]
  exact headConstructor?_under_congr htypes t
    (show ([] : List Ty).length = ([] : List Ty).length from rfl)

end Ty

/-- The requirements are of the same trait, and their types have the same head under the
valuation. -/
structure Given.Like (V : Valuation) (g g' : Given) : Prop where
  traitName : g.traitName = g'.traitName
  head : (g.type.under V).headConstructor? = (g'.type.under V).headConstructor?

theorem Given.Like.refl (V : Valuation) (g : Given) : g.Like V g := ⟨rfl, rfl⟩

theorem Given.Like.trans {V : Valuation} {g g' g'' : Given} (h : g.Like V g') (h' : g'.Like V g'') :
    g.Like V g'' :=
  ⟨h.traitName.trans h'.traitName, h.head.trans h'.head⟩

/-- The requirement that generalisation makes of an obligation is like it. -/
theorem Obligation.like_closing {V : Valuation} {s : Subst} (hV : V.Absorbs s)
    (tails : List EffectVar) (ob : Obligation) :
    ((ob.apply s).apply (Generalize.closing tails)).toGiven.Like V ob.toGiven where
  traitName := rfl
  head := by
    change (((Generalize.closing tails).apply (s.apply ob.type)).under V).headConstructor? = _
    rw [Ty.headConstructor?_closing, Subst.under_apply hV]
    rfl

namespace Infer

/-! ## The expressions an inference comes to -/

/-- What follows a computation if it succeeds. -/
def after {α β : Type} (x : InferM α) (st : InferState) (k : α → InferState → List β) : List β :=
  match x st with
  | .ok a st' => k a st'
  | .error _ _ => []

theorem mem_after {α β : Type} {x : InferM α} {st : InferState} {k : α → InferState → List β}
    {b : β} :
    b ∈ after x st k ↔ ∃ a st', x st = .ok a st' ∧ b ∈ k a st' := by
  rw [after]
  rcases x st with ⟨a, st'⟩ | ⟨e, st'⟩ <;> simp

theorem after_of_ok {α β : Type} {x : InferM α} {st st' : InferState} {k : α → InferState → List β}
    {a : α} (h : x st = .ok a st') : after x st k = k a st' := by
  rw [after, h]

/-- Make a type fit a stated one. -/
def fitStated (reg : Registry) (stated : Option (Spanned TypeExpr)) (t : Ty) : InferM Unit :=
  match stated with
  | none => return ()
  | some written => do
    let declared ← resolve reg written
    unify declared t ⟨written.span, .letType⟩

mutual

/-- The expressions that the inference of an expression comes to, in order, with the states in which
they are inferred. -/
def visits (reg : Registry) : Expr → InferState → List (Expr × InferState)
  | .lit span value, st => [(.lit span value, st)]
  | .var span name, st => [(.var span name, st)]
  | .lambda span params body, st =>
    (.lambda span params body, st) ::
      after (parameters reg params) (opened st) fun _ st => visits reg body st
  | .call span func args, st =>
    (.call span func args, st) ::
      (visits reg func st ++ after (expr reg func) st fun _ st => visitsAll reg args st)
  | .letIn span p stated value body, st =>
    (.letIn span p stated value body, st) ::
      (visits reg value st ++
        after (expr reg value) st fun bound st => after
          (fitStated reg stated bound.type) st fun _ st =>
          after (bindLet reg p value bound.type) (opened st) fun _ st => visits reg body st)
  | .cond span condition onTrue onFalse, st =>
    (.cond span condition onTrue onFalse, st) ::
      (visits reg condition st ++
        after (expr reg condition) st fun cond st =>
          after (unify (.prim .bool) cond.type ⟨condition.span, .ifCondition⟩) st fun _ st =>
            visits reg onTrue st ++ after (expr reg onTrue) st fun _ st => visits reg onFalse st)
  | .cases span scrutinee branches, st =>
    (.cases span scrutinee branches, st) ::
      (visits reg scrutinee st ++
        after (expr reg scrutinee) st fun value st => visitsArms reg value.type none branches st)
  | .ascribe span inner written, st => (.ascribe span inner written, st) :: visits reg inner st
  | .tuple span elems, st => (.tuple span elems, st) :: visitsAll reg elems st

/-- The expressions that the inference of several expressions comes to. -/
def visitsAll (reg : Registry) : List Expr → InferState → List (Expr × InferState)
  | [], _ => []
  | e :: es, st => visits reg e st ++ after (expr reg e) st fun _ st => visitsAll reg es st

/-- The expressions that the inference of the arms of a choice comes to. -/
def visitsArms (reg : Registry) (scrutinee : Ty) (first : Option (Ty × Span)) :
    List (Pattern × Expr) → InferState → List (Expr × InferState)
  | [], _ => []
  | (p, body) :: rest, st =>
    after (pattern reg p scrutinee) (opened st) (fun _ st => visits reg body st) ++
      after (arms reg scrutinee first [(p, body)]) st fun (first, _) st =>
        visitsArms reg scrutinee first rest st

end

theorem mem_visits_self (reg : Registry) (e : Expr) (st : InferState) :
    (e, st) ∈ visits reg e st := by
  cases e <;> exact .head _

/-- The obligations that arise where an expression is inferred: those of the scheme that a variable
refers to. -/
def raisedAt : Expr × InferState → List Obligation
  | (.var span name, st) =>
    match st.env.get? name with
    | some σ =>
      after (instantiate σ span) st fun _ st' => st'.obligations.drop st.obligations.length
    | none => []
  | _ => []

/-- An obligation that a place raises is pending after the inference there. -/
theorem mem_obligations_of_raisedAt {reg : Registry} {v : Expr × InferState} {r : Typed}
    {s' : InferState} {ob : Obligation} (hob : ob ∈ raisedAt v) (h : expr reg v.1 v.2 = .ok r s') :
    ob ∈ s'.obligations := by
  obtain ⟨e, st⟩ := v
  cases e with
  | var span name =>
    rcases hσ : st.env.get? name with _ | σ
    · simp [raisedAt, hσ] at hob
    simp only [raisedAt, hσ, mem_after] at hob
    obtain ⟨t, st₁, hinst, hob⟩ := hob
    simp only [expr, bind_eq_ok, get_eq_ok] at h
    obtain ⟨_, _, ⟨rfl, rfl⟩, h⟩ := h
    simp only [hσ, bind_eq_ok, pure_eq_ok, hinst] at h
    obtain ⟨_, _, hok, _, _, hrecord, -, rfl⟩ := h
    obtain ⟨rfl, rfl⟩ := EStateM.Result.ok.inj hok
    rw [(Prod.mk.inj (record_ok hrecord).unsettled).1]
    exact mem_of_mem_drop hob
  | lit | lambda | call | letIn | cond | cases | ascribe | tuple => cases hob

/-! ## Conservation -/

/-- A requirement like the given one is pending, or it is one of `G`. -/
def Holds (V : Valuation) (G : Given → Prop) (st : InferState) (g : Given) : Prop :=
  (∃ ob ∈ st.obligations, ob.toGiven.Like V g) ∨ ∃ g', G g' ∧ g'.Like V g

/-- Whatever is held in the first state is held in the second one. -/
def Retains (V : Valuation) (G : Given → Prop) (st st' : InferState) : Prop :=
  ∀ g, Holds V G st g → Holds V G st' g

section Retains

variable {V : Valuation} {G : Given → Prop} {reg : Registry} {st st' st₁ : InferState}

theorem Holds.like {g g' : Given} (h : Holds V G st g) (hlike : g.Like V g') : Holds V G st g' := by
  rcases h with ⟨ob, hob, hg⟩ | ⟨g₀, hg₀, hg⟩
  · exact .inl ⟨ob, hob, hg.trans hlike⟩
  · exact .inr ⟨g₀, hg₀, hg.trans hlike⟩

theorem Retains.refl (st : InferState) : Retains V G st st := fun _ h => h

theorem Retains.trans (h : Retains V G st st₁) (h' : Retains V G st₁ st') : Retains V G st st' :=
  fun g hg => h' g (h g hg)

theorem retains_of_forall (h : ∀ ob ∈ st.obligations, Holds V G st' ob.toGiven) :
    Retains V G st st' := by
  rintro g (⟨ob, hob, hlike⟩ | hg)
  · exact (h ob hob).like hlike
  · exact .inr hg

theorem retains_of_subset (h : ∀ ob ∈ st.obligations, ob ∈ st'.obligations) : Retains V G st st' :=
  retains_of_forall fun ob hob => .inl ⟨ob, h ob hob, .refl V _⟩

theorem retains_of_unsettled (h : st'.unsettled = st.unsettled) : Retains V G st st' := by
  have hobs : st'.obligations = st.obligations := congrArg Prod.fst h
  exact retains_of_subset fun _ hob => hobs ▸ hob

/-- Generalisation hands an obligation back or makes it a requirement of the scheme. -/
theorem generalize_takes {t : Ty} {residual deferred : List Obligation} {s : Subst}
    {fixed : FixedVars}
    {hints : VarNames} {σ : Scheme} (h : generalize t residual s fixed hints = .ok (σ, deferred)) :
    ∃ tails, ∀ ob ∈ residual, (ob.apply s).apply (Generalize.closing tails) ∈ deferred ∨
      ((ob.apply s).apply (Generalize.closing tails)).toGiven ∈ σ.givens := by
  simp only [generalize] at h
  split at h
  · cases h
  · injection h with h
    obtain ⟨rfl, rfl⟩ := Prod.mk.inj h
    refine ⟨Generalize.singletonTails (s.apply t) residual fixed, fun ob hob => ?_⟩
    have hmem := mem_map_of_mem
      (f := fun ob : Obligation => (ob.apply s).apply
        (Generalize.closing (Generalize.singletonTails (s.apply t) residual fixed))) hob
    rcases hfixed : Generalize.isFixed fixed ((ob.apply s).apply
      (Generalize.closing (Generalize.singletonTails (s.apply t) residual fixed))) with _ | _
    · refine .inr (mem_groupByTrait.mpr (mem_map_of_mem (mem_filter.mpr ⟨hmem, ?_⟩)))
      rw [hfixed]
      rfl
    · exact .inl (mem_filter.mpr ⟨hmem, hfixed⟩)

theorem mem_locals_bind_self (env : Env) (name : String) (σ : Scheme) :
    σ ∈ (env.bind name σ).locals := by
  obtain ⟨globals, _ | ⟨scope, outer⟩⟩ := env
  · exact mem_flatMap.mpr ⟨_, .head _,
      Dict.mem_values_of_get? (k := name) (by simp [Dict.get?_insert])⟩
  · exact mem_flatMap.mpr ⟨_, .head _,
      Dict.mem_values_of_get? (k := name) (by simp [Dict.get?_insert])⟩

/-- A local definition keeps the obligations that others share and takes over the others. -/
theorem retains_bindGeneralized {span : Span} {name : String} {t : Ty} {u : Unit}
    (hV : V.Absorbs st.subst) (h : bindGeneralized span name t st = .ok u st')
    (hG : ∀ σ ∈ st'.env.locals, ∀ g ∈ σ.givens, G g) : Retains V G st st' := by
  simp only [bindGeneralized, bind_eq_ok, get_eq_ok] at h
  obtain ⟨⟨fixed, inner⟩, st₁, hsplit, _, _, ⟨rfl, rfl⟩, h⟩ := h
  obtain ⟨⟨hsubst, -⟩, -, hsplits⟩ := splitObligations_ok hsplit
  rcases hgen : generalize t inner st₁.subst fixed st₁.names with e | ⟨σ, deferred⟩
  · simp only [hgen, throw_eq_ok] at h
  simp only [hgen, bind_eq_ok, defer, record, bind, modify_eq_ok] at h
  obtain ⟨_, _, rfl, _, _, rfl, hfinal⟩ := h
  have hobs : st'.obligations = st₁.obligations ++ deferred := by
    rw [← hfinal]
    exact InferState.obligations_note _ _
  have hlocal : σ ∈ st'.env.locals := by
    rw [← hfinal]
    exact mem_locals_bind_self _ name σ
  obtain ⟨tails, htakes⟩ := generalize_takes hgen
  refine retains_of_forall fun ob hob => ?_
  have hlike := Obligation.like_closing (hsubst.symm ▸ hV) tails ob
  rcases hsplits ob hob with hinner | hshared
  · rcases htakes ob hinner with hdeferred | hgiven
    · exact .inl ⟨_, by rw [hobs]; exact mem_append_right _ hdeferred, hlike⟩
    · exact .inr ⟨_, hG σ hlocal _ hgiven, hlike⟩
  · exact .inl ⟨ob, by rw [hobs]; exact mem_append_left _ hshared, .refl V _⟩

end Retains

end Infer

end RowTyping
