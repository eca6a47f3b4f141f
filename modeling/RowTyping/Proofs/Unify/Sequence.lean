import RowTyping.Proofs.Computation
import RowTyping.Proofs.Unify.Soundness

/-!
# Solving equations in sequence

Solving a list of equations is solving its first part and then the rest, as the bindings found by
then resolve it (`Unify.solve_append`). Solving replaces variables in the rest step by step, while a
substitution is applied to it at once. Both come to the same because what is bound is in normal
form, with all arguments of an application in one place (`Ty.Normal`), and replacing variables gives
normal forms.
-/

namespace RowTyping

open List

/-! ## Normal forms -/

namespace Ty

/-- Applying the type to arguments makes a new application. -/
def IsHead (t : Ty) : Prop :=
  ∀ a as, t.applyTo (a :: as) = .app t (a :: as)

/-- All arguments of an application are in one place. -/
inductive Normal : Ty → Prop
  | prim (p : Prim) : Normal (.prim p)
  | var (v : TypeVar) : Normal (.var v)
  | named (name : String) {args : List Ty} (h : ∀ t ∈ args, Normal t) : Normal (.named name args)
  | app {head a : Ty} {as : List Ty} (hhead : Normal head) (hnew : head.IsHead)
    (hargs : ∀ t ∈ a :: as, Normal t) : Normal (.app head (a :: as))
  | fn {params : List Ty} {result : Ty} (row : Row) (hparams : ∀ t ∈ params, Normal t)
    (hresult : Normal result) : Normal (.fn params result row)
  | tuple {elems : List Ty} (h : ∀ t ∈ elems, Normal t) : Normal (.tuple elems)

theorem Normal.applyTo {head : Ty} {args : List Ty} (hhead : head.Normal)
    (hargs : ∀ t ∈ args, t.Normal) : (head.applyTo args).Normal := by
  rcases args with _ | ⟨a, as⟩
  · exact hhead
  cases hhead with
  | prim p => exact .app (.prim p) (fun _ _ => rfl) hargs
  | var v => exact .app (.var v) (fun _ _ => rfl) hargs
  | named name h => exact .named name (forall_mem_append.mpr ⟨h, hargs⟩)
  | app hinner hnew hbefore => exact .app hinner hnew (forall_mem_append.mpr ⟨hbefore, hargs⟩)
  | fn row hparams hresult => exact .app (.fn row hparams hresult) (fun _ _ => rfl) hargs
  | tuple h => exact .app (.tuple h) (fun _ _ => rfl) hargs

/-- Replacing variables by normal types gives a normal type. -/
theorem normal_under {V : Valuation} (hV : ∀ v, (V.types v).Normal) (t : Ty) :
    (t.under V).Normal := by
  have hall {ts : List Ty} (ih : ∀ t ∈ ts, (t.under V).Normal) :
      ∀ t ∈ ts.map (·.under V), t.Normal :=
    forall_mem_map.mpr ih
  induction t with
  | prim p => exact .prim p
  | var v => exact hV v
  | named name args ih =>
    rw [under_named]
    exact .named name (hall ih)
  | app head args ihHead ihArgs =>
    rw [under_app]
    exact ihHead.applyTo (hall ihArgs)
  | fn params result effects ihParams ihResult =>
    rw [under_fn]
    exact .fn _ (hall ihParams) ihResult
  | tuple elems ih =>
    rw [under_tuple]
    exact .tuple (hall ih)

theorem Normal.under_self {t : Ty} (h : t.Normal) : t.under .self = t := by
  have hall {ts : List Ty} (ih : ∀ t ∈ ts, t.under .self = t) : ts.map (·.under .self) = ts :=
    (map_congr_left ih).trans (map_id' ts)
  induction h with
  | prim p => rfl
  | var v => rfl
  | named name _ ih => rw [under_named, hall ih]
  | app _ hnew _ ihHead ihArgs => rw [under_app, ihHead, hall ihArgs, hnew]
  | fn row _ _ ihParams ihResult => rw [under_fn, hall ihParams, ihResult, Row.under_self]
  | tuple _ ih => rw [under_tuple, hall ih]

theorem Splits.normal {t x : Ty} {args : List Ty} (h : t.Splits x args) (ht : t.Normal) :
    x.Normal ∧ ∀ a ∈ args, a.Normal := by
  cases h with
  | app head before =>
    generalize hall : before ++ args = all at ht
    cases ht with
    | app hhead _ hargs =>
      rw [← hall] at hargs
      obtain ⟨hbefore, hargs⟩ := forall_mem_append.mp hargs
      exact ⟨hhead.applyTo hbefore, hargs⟩
  | named name before =>
    cases ht with
    | named _ hargs =>
      obtain ⟨hbefore, hargs⟩ := forall_mem_append.mp hargs
      exact ⟨.named name hbefore, hargs⟩

end Ty

/-- What a type variable stands for under a substitution is in normal form. -/
theorem Subst.normal_valuation (s : Subst) (v : TypeVar) : (s.valuation.types v).Normal := by
  have hresolve (n : Nat) : ∀ v, (s.resolveType n v).Normal := by
    induction n with
    | zero => exact .var
    | succ n ih =>
      intro v
      rw [resolveType]
      split
      · exact .var v
      · exact Ty.normal_under (V := ⟨s.resolveType n, _⟩) ih _
  exact hresolve _ v

namespace Equation

/-- Both sides are in normal form. -/
def Normal : Equation → Prop
  | .types a b => a.Normal ∧ b.Normal
  | .rows _ _ => True

theorem normal_under {V : Valuation} (hV : ∀ v, (V.types v).Normal) (eq : Equation) :
    (eq.under V).Normal := by
  cases eq with
  | types a b => exact ⟨a.normal_under hV, b.normal_under hV⟩
  | rows a b => trivial

theorem under_andThen (V W : Valuation) (eq : Equation) :
    eq.under (V.andThen W) = (eq.under V).under W := by
  cases eq with
  | types a b => exact congrArg₂ Equation.types (Ty.under_andThen V W a) (Ty.under_andThen V W b)
  | rows a b => exact congrArg₂ Equation.rows (Row.under_andThen a) (Row.under_andThen b)

theorem normal_zip {as bs : List Ty} (has : ∀ t ∈ as, t.Normal) (hbs : ∀ t ∈ bs, t.Normal) :
    ∀ eq ∈ zip as bs, eq.Normal := by
  intro eq heq
  obtain ⟨a, ha, b, hb, rfl⟩ := mem_zip heq
  exact ⟨has a ha, hbs b hb⟩

theorem Decomposes.normal {a b : Ty} {parts : List Equation} (h : Decomposes a b parts)
    (ha : a.Normal) (hb : b.Normal) : ∀ eq ∈ parts, eq.Normal := by
  cases h with
  | named =>
    cases ha with
    | named _ has =>
      cases hb with
      | named _ hbs => exact normal_zip has hbs
  | heads hsa hsb =>
    have ha := hsa.normal ha
    have hb := hsb.normal hb
    exact forall_mem_cons.mpr ⟨⟨ha.1, hb.1⟩, normal_zip ha.2 hb.2⟩
  | fn =>
    cases ha with
    | fn _ hps hp =>
      cases hb with
      | fn _ hqs hq =>
        exact forall_mem_append.mpr
          ⟨normal_zip hps hqs, by simpa [Normal] using ⟨hp, hq⟩⟩
  | tuple =>
    cases ha with
    | tuple has =>
      cases hb with
      | tuple hbs => exact normal_zip has hbs

end Equation

/-! ## Resolving by further bindings -/

/-- An unbound variable stands for itself. -/
theorem Subst.agreesAt_self {s : Subst} {x : Var} (hx : ¬ s.Binds x) :
    s.valuation.AgreesAt .self x := by
  rcases x with v | e
  · exact types_of_unbound (by simpa [Binds] using hx)
  · exact effects_of_unbound (by simpa [Binds] using hx)

/-- An extension resolves variables like the substitution followed by what the extension adds. -/
theorem Subst.Extends.valuation_eq {s s' : Subst} (h : s.Extends s') (hs : s.Acyclic)
    (hs' : s'.Acyclic) {V : Valuation} (hV : ∀ x, ¬ s.Binds x → s'.valuation.AgreesAt V x) :
    s'.valuation = s.valuation.andThen V :=
  (h.andThen_eq hs hs').symm.trans
    (Valuation.eq_of_agreesAt fun _ => .andThen fun y hy => hV y (hs.mem_image hy).2)

namespace Unify

variable {s s' : Subst} {rest : List Equation} {f f' : Fresh} {t : Ty} {v : TypeVar}

theorem normal_replacing (ht : t.Normal) (w : TypeVar) : ((replacing v t).types w).Normal := by
  change (if w = v then t else .var w).Normal
  split
  · exact ht
  · exact .var w

theorem normal_of_sides {a b : Ty} (hab : a = .var v ∧ b = t ∨ a = t ∧ b = .var v)
    (hnormal : (Equation.types a b).Normal) : t.Normal := by
  rcases hab with ⟨rfl, rfl⟩ | ⟨rfl, rfl⟩
  · exact hnormal.2
  · exact hnormal.1

theorem valuation_bindType {a b : Ty} (hc : Config.Valid ⟨s, .types a b :: rest, f⟩)
    (hnormal : (Equation.types a b).Normal) (hab : a = .var v ∧ b = t ∨ a = t ∧ b = .var v)
    (hv : v ∉ t.typeOccurrences) :
    (s.bindType v t).valuation = s.valuation.andThen (replacing v t) := by
  have hreach := (Step.bind hab hv).reaches hc
  have hacyclic : (s.bindType v t).Acyclic := hreach.valid.acyclic
  have hunbound {x : Var} (hx : x ∈ t.occurrences) : ¬ (s.bindType v t).Binds x := by
    intro hbinds
    rcases Subst.binds_bindType.mp hbinds with rfl | hbinds
    · exact hv (Equation.mem_typeOccurrences.mpr hx)
    · exact hc.resolved (mentions_sides hab (.inr hx)) hbinds
  refine hreach.grows.keeps.valuation_eq hc.acyclic hacyclic fun x hx => ?_
  rcases x with w | e
  · by_cases hwv : w = v
    · subst hwv
      have ht : t.Normal := normal_of_sides hab hnormal
      have hself : t.under (s.bindType w t).valuation = t.under .self :=
        Ty.under_congr fun x hx => Subst.agreesAt_self (hunbound hx)
      have hbound := hacyclic.types_of_bound (v := w) (t := t) (by simp [Subst.bindType])
      rw [hself, ht.under_self] at hbound
      simpa [Valuation.AgreesAt, replacing] using hbound
    · have hnone : (s.bindType v t).types.get? w = none := by
        simpa [Subst.bindType, hwv, Subst.Binds] using hx
      simpa [Valuation.AgreesAt, replacing, hwv] using Subst.types_of_unbound hnone
  · exact Subst.effects_of_unbound (by simpa [Subst.Binds, Subst.bindType] using hx)

theorem valuation_rows {a b : Row} (hc : Config.Valid ⟨s, .rows a b :: rest, f⟩)
    (h : RowStep a b s f s' f') : s'.valuation = s.valuation.andThen (rowsOnly s') := by
  have hreach := (Step.rows h).reaches hc
  refine hreach.grows.keeps.valuation_eq hc.acyclic hreach.valid.acyclic fun x hx => ?_
  rcases x with w | e
  · exact Subst.types_of_unbound (by simpa [h.types_eq, Subst.Binds] using hx)
  · rfl

/-! ## One part after the other -/

private theorem bind_of_ok {ε σ α β : Type} {x : EStateM ε σ α} {g : α → EStateM ε σ β} {st st₁ : σ}
    {a : α} (h : x st = .ok a st₁) : (x >>= g) st = g a st₁ := by
  change EStateM.bind x g st = _
  simp only [EStateM.bind, h]

private theorem bind_of_error {ε σ α β : Type} {x : EStateM ε σ α} {g : α → EStateM ε σ β}
    {st st₁ : σ} {e : ε} (h : x st = .error e st₁) : (x >>= g) st = .error e st₁ := by
  change EStateM.bind x g st = _
  simp only [EStateM.bind, h]

/-- Solving equations is solving the first ones and then the others, resolved by then. -/
theorem solve_append (ys : List Equation) {xs : List Equation} {u : Unifier}
    (hc : Config.Valid ⟨s, xs ++ ys.map (·.under s.valuation), u.fresh⟩)
    (hnormal : ∀ eq ∈ xs, eq.Normal) :
    solve s (xs ++ ys.map (·.under s.valuation)) u =
      (solve s xs >>= fun s₁ => solve s₁ (ys.map (·.under s₁.valuation))) u := by
  induction s, xs using solve.induct generalizing u with
  | case1 s => rw [bind_of_ok (x := solve s []) (by rw [solve]; rfl), nil_append]
  | case2 s a b rest ih =>
    rw [cons_append] at hc ⊢
    rw [solve, solve, bind_assoc]
    rcases solveRows_outcome s a b u with ⟨s₁, u₁, hok, hstep⟩ | ⟨-, err, u₁, herr⟩
    · rw [bind_of_ok hok, bind_of_ok hok]
      have hvaluation := valuation_rows hc hstep
      have hrest : Equation.resolveAllRows s₁ (rest ++ ys.map (·.under s.valuation)) =
          Equation.resolveAllRows s₁ rest ++ ys.map (·.under s₁.valuation) := by
        rw [Equation.resolveAllRows, Equation.resolveAllRows, map_append, map_map]
        congr 2
        funext eq
        rw [hvaluation, Equation.under_andThen]
        rfl
      rw [hrest]
      refine ih s₁ (hrest ▸ (Step.rows hstep).reaches hc |>.valid) fun eq heq => ?_
      obtain ⟨eq₀, -, rfl⟩ := mem_resolveAllRows.mp heq
      exact Equation.normal_under (V := rowsOnly s₁) .var eq₀
    · rw [bind_of_error herr, bind_of_error herr]
  | case3 s a rest ih =>
    rw [cons_append] at hc ⊢
    rw [solve, if_pos rfl, solve, if_pos rfl, bind_assoc]
    exact ih (u := u.note _) ((u.fresh_note _).symm ▸ (Step.identical.reaches hc).valid)
      fun eq heq => hnormal eq (.tail _ heq)
  | case4 s a b rest hne v t hb hv =>
    rw [cons_append, solve_types hne, solve_types hne]
    simp only [hb, if_pos hv]
    rfl
  | case5 s a b rest hne v t hb hv ih =>
    rw [cons_append] at hc ⊢
    have hsides := binding?_eq_some hb
    have hvaluation := valuation_bindType hc (hnormal _ (.head _)) hsides hv
    have hrest : Equation.replaceAll v t (rest ++ ys.map (·.under s.valuation)) =
        Equation.replaceAll v t rest ++ ys.map (·.under (s.bindType v t).valuation) := by
      rw [Equation.replaceAll, Equation.replaceAll, map_append, map_map]
      congr 2
      funext eq
      rw [hvaluation, Equation.under_andThen]
      rfl
    have ht : t.Normal := normal_of_sides hsides (hnormal _ (.head _))
    rw [solve_types hne, solve_types hne]
    simp only [hb, if_neg hv, bind_assoc]
    rw [hrest]
    refine ih (u := u.note _)
      ((u.fresh_note _).symm ▸ hrest ▸ (Step.bind hsides hv).reaches hc |>.valid) fun eq heq => ?_
    obtain ⟨eq₀, -, rfl⟩ := mem_replaceAll.mp heq
    exact Equation.normal_under (normal_replacing ht) eq₀
  | case6 s a b rest hne hb shape parts hd ih =>
    rw [cons_append] at hc ⊢
    have hparts := Equation.decomposes_of_eq_some hd
    have hsides := hnormal _ (.head _)
    rw [solve_types hne, solve_types hne]
    simp only [hb, hd, bind_assoc]
    have hvalid := ((Step.decompose hparts).reaches hc).valid
    rw [← append_assoc] at hvalid
    rw [← append_assoc]
    exact ih (u := u.note _) ((u.fresh_note _).symm ▸ hvalid)
      (forall_mem_append.mpr ⟨hparts.normal hsides.1 hsides.2,
        fun eq heq => hnormal eq (.tail _ heq)⟩)
  | case7 s a b rest hne hb hd =>
    rw [cons_append, solve_types hne, solve_types hne]
    simp only [hb, hd]
    rfl

end Unify

end RowTyping
