import RowTyping.Proofs.Typing.Context
import RowTyping.Proofs.Upcoming

/-!
# What inference preserves

Between two steps of an inference the bindings have no cycle and nothing in sight mentions a
variable that is still to be drawn (`InferState.Valid`). `Infer.Advances` relates the states before
and after a computation: bindings are kept, and a set of variables that is closed under the bindings
and has all variables to come stays closed if the computation is given types over it. The second
part is what keeps the quantified variables of a local scheme apart from everything that is inferred
later.
-/

namespace RowTyping

/-- A set of variables that types stay in. -/
abbrev Region := Var → Prop

/-! ## Types over a region -/

/-- All variables of the type are in the region. -/
def Ty.Over (t : Ty) (P : Region) : Prop :=
  ∀ x ∈ t.occurrences, P x

/-- The tail of the row is in the region. -/
def Row.Over (r : Row) (P : Region) : Prop :=
  ∀ e, r.tail = some e → P (.effect e)

/-- The rows of the type are sorted and its variables have been drawn already. -/
structure Ty.Usable (t : Ty) (f : Fresh) : Prop where
  sorted : t.RowsSorted
  drawn : t.Over fun x => ¬ f.Upcoming x

/-- The row is sorted and its tail has been drawn already. -/
structure Row.Usable (r : Row) (f : Fresh) : Prop where
  sorted : r.IsSorted
  drawn : r.Over fun x => ¬ f.Upcoming x

section Over

variable {P Q : Region} {f f' : Fresh} {r : Row}

theorem Ty.Over.mono {t : Ty} (h : t.Over P) (hPQ : ∀ x, P x → Q x) : t.Over Q :=
  fun x hx => hPQ x (h x hx)

theorem Row.Over.mono (h : r.Over P) (hPQ : ∀ x, P x → Q x) : r.Over Q :=
  fun e he => hPQ _ (h e he)

theorem Row.over_of_tail_none (h : r.tail = none) : r.Over P := by
  intro e he
  rw [h] at he
  cases he

@[simp]
theorem Row.over_pure : Row.pure.Over P := Row.over_of_tail_none rfl

@[simp]
theorem Ty.over_prim (p : Prim) : (Ty.prim p).Over P :=
  fun _ hx => (List.not_mem_nil hx).elim

@[simp]
theorem Ty.over_var {v : TypeVar} : (Ty.var v).Over P ↔ P (.type v) := by
  simp [Ty.Over, Ty.occurrences]

@[simp]
theorem Row.over_ofVar {e : EffectVar} : (Row.ofVar e).Over P ↔ P (.effect e) := by
  simp [Row.Over, Row.ofVar]

theorem Ty.over_fn {params : List Ty} {result : Ty} {effects : Row} :
    (Ty.fn params result effects).Over P ↔
      (∀ t ∈ params, t.Over P) ∧ result.Over P ∧ effects.Over P := by
  constructor
  · intro h
    exact ⟨fun t ht x hx => h x (Ty.mem_occurrences_fn.mpr (.inl ⟨t, ht, hx⟩)),
      fun x hx => h x (Ty.mem_occurrences_fn.mpr (.inr (.inl hx))),
      fun e he => h _ (Ty.mem_occurrences_fn.mpr (.inr (.inr ⟨e, he, rfl⟩)))⟩
  · rintro ⟨hparams, hresult, heffects⟩ x hx
    rcases Ty.mem_occurrences_fn.mp hx with ⟨t, ht, hx⟩ | hx | ⟨e, he, rfl⟩
    · exact hparams t ht x hx
    · exact hresult x hx
    · exact heffects e he

theorem Ty.over_tuple {elems : List Ty} : (Ty.tuple elems).Over P ↔ ∀ t ∈ elems, t.Over P := by
  constructor
  · exact fun h t ht x hx => h x (Ty.mem_occurrences_tuple.mpr ⟨t, ht, hx⟩)
  · intro h x hx
    obtain ⟨t, ht, hx⟩ := Ty.mem_occurrences_tuple.mp hx
    exact h t ht x hx

theorem Ty.Usable.later {t : Ty} (h : t.Usable f) (hlater : f.Later f') : t.Usable f' :=
  ⟨h.sorted, h.drawn.mono fun _ hx hup => hx (hlater.upcoming hup)⟩

theorem Row.Usable.later (h : r.Usable f) (hlater : f.Later f') : r.Usable f' :=
  ⟨h.sorted, h.drawn.mono fun _ hx hup => hx (hlater.upcoming hup)⟩

@[simp]
theorem Row.usable_pure : Row.pure.Usable f := ⟨Row.isSorted_pure, Row.over_pure⟩

@[simp]
theorem Ty.usable_prim (p : Prim) : (Ty.prim p).Usable f :=
  ⟨fun _ hr => (List.not_mem_nil hr).elim, Ty.over_prim p⟩

theorem Ty.usable_var {v : TypeVar} (h : ¬ f.Upcoming (.type v)) : (Ty.var v).Usable f :=
  ⟨fun _ hr => (List.not_mem_nil hr).elim, Ty.over_var.mpr h⟩

theorem Row.usable_ofVar {e : EffectVar} (h : ¬ f.Upcoming (.effect e)) : (Row.ofVar e).Usable f :=
  ⟨Row.isSorted_ofVar e, Row.over_ofVar.mpr h⟩

theorem Ty.usable_fn {params : List Ty} {result : Ty} {effects : Row} :
    (Ty.fn params result effects).Usable f ↔
      (∀ t ∈ params, t.Usable f) ∧ result.Usable f ∧ effects.Usable f := by
  constructor
  · rintro ⟨hsorted, hover⟩
    obtain ⟨hparams, hresult, heffects⟩ := Ty.over_fn.mp hover
    exact ⟨fun t ht => ⟨fun r hr => hsorted r (Ty.mem_rows_fn.mpr (.inl ⟨t, ht, hr⟩)),
      hparams t ht⟩,
      ⟨fun r hr => hsorted r (Ty.mem_rows_fn.mpr (.inr (.inl hr))), hresult⟩,
      ⟨hsorted effects (Ty.mem_rows_fn.mpr (.inr (.inr rfl))), heffects⟩⟩
  · rintro ⟨hparams, hresult, heffects⟩
    refine ⟨fun r hr => ?_,
      Ty.over_fn.mpr ⟨fun t ht => (hparams t ht).drawn, hresult.drawn, heffects.drawn⟩⟩
    rcases Ty.mem_rows_fn.mp hr with ⟨t, ht, hr⟩ | hr | rfl
    · exact (hparams t ht).sorted r hr
    · exact hresult.sorted r hr
    · exact heffects.sorted

theorem Ty.usable_tuple {elems : List Ty} (h : ∀ t ∈ elems, t.Usable f) :
    (Ty.tuple elems).Usable f := by
  refine ⟨fun r hr => ?_, Ty.over_tuple.mpr fun t ht => (h t ht).drawn⟩
  obtain ⟨t, ht, hr⟩ := Ty.mem_rows_tuple.mp hr
  exact (h t ht).sorted r hr

end Over

/-! ## Substitutions -/

/-- A substitution that inference can work with. -/
structure Subst.Valid (s : Subst) (f : Fresh) : Prop where
  /-- The bindings have no cycle. -/
  acyclic : s.Acyclic
  /-- The bound rows are sorted. -/
  sorted : s.RowsSorted
  /-- No variable will be drawn twice. -/
  distinct : f.Distinct
  /-- No variable to be drawn has a binding or occurs in one. -/
  unmentioned : ∀ {x}, f.Upcoming x → ¬ s.Mentions x

namespace Subst

variable {s : Subst} {f f' : Fresh} {P : Region}

theorem Valid.later (h : s.Valid f) (hlater : f.Later f') : s.Valid f' :=
  ⟨h.acyclic, h.sorted, hlater.distinct h.distinct, fun hx => h.unmentioned (hlater.upcoming hx)⟩

/-- What a variable of a region stands for is over the region. -/
theorem Acyclic.image_over (hs : s.Acyclic) (hP : s.ClosedOn P) {x y : Var} (hx : P x)
    (hy : y ∈ s.valuation.image x) : P y :=
  hP.of_path hx (hs.mem_image hy).1

/-- Applying a substitution stays in a region that its bindings stay in. -/
theorem Acyclic.apply_over (hs : s.Acyclic) (hP : s.ClosedOn P) {t : Ty} (ht : t.Over P) :
    (s.apply t).Over P := by
  intro y hy
  rw [apply_eq_under] at hy
  obtain ⟨x, hx, hy⟩ := Ty.mem_occurrences_under.mp hy
  exact hs.image_over hP (ht x hx) hy

theorem Acyclic.applyRow_over (hs : s.Acyclic) (hP : s.ClosedOn P) {r : Row} (hr : r.Over P) :
    (s.applyRow r).Over P := by
  intro f hf
  rw [applyRow_eq_under, Row.tail_under, Option.bind_eq_some_iff] at hf
  obtain ⟨e, he, hf⟩ := hf
  exact hs.image_over hP (hr e he) (by simp [Valuation.image, hf])

/-- The variables drawn so far are closed under the bindings. -/
theorem Valid.closedOn (h : s.Valid f) : s.ClosedOn fun x => ¬ f.Upcoming x :=
  fun x _ _ hxy hup => h.unmentioned hup (.inr ⟨x, hxy⟩)

theorem Valid.apply_usable (h : s.Valid f) {t : Ty} (ht : t.Usable f) : (s.apply t).Usable f :=
  ⟨ht.sorted.under fun v _ => h.sorted.valuation h.acyclic v,
    h.acyclic.apply_over h.closedOn ht.drawn⟩

theorem Valid.applyRow_usable (h : s.Valid f) {r : Row} (hr : r.Usable f) :
    (s.applyRow r).Usable f :=
  ⟨hr.sorted.under s.valuation, h.acyclic.applyRow_over h.closedOn hr.drawn⟩

end Subst

/-! ## Environments and registries -/

/-- The scheme mentions only variables that have been drawn already. -/
structure Scheme.Usable (σ : Scheme) (f : Fresh) : Prop where
  type : σ.type.Usable f
  quantified : ∀ {x}, x ∈ σ.quantified → ¬ f.Upcoming x

/-- The environment mentions only variables that have been drawn already, and the schemes of the
whole module have no free variables. -/
structure Env.Usable (env : Env) (f : Fresh) : Prop where
  locals : ∀ σ ∈ env.locals, σ.Usable f
  globals : ∀ {name σ}, env.globals.get? name = some σ → σ.Usable f
  closed : ∀ {name σ}, env.globals.get? name = some σ → ∀ x, ¬ σ.Free x

/-- The free variables of the local scopes are in the region. -/
def Env.Over (env : Env) (P : Region) : Prop :=
  ∀ σ ∈ env.locals, ∀ x, σ.Free x → P x

/-- The fields of constructors mention only the parameters of their data type, which have been drawn
already. -/
structure Registry.Usable (reg : Registry) (f : Fresh) : Prop where
  params : ∀ {name d c}, reg.dataTypes.constructor? name = some (d, c) →
    ∀ v ∈ d.paramVars, ¬ f.Upcoming (.type v)
  sorted : ∀ {name d c}, reg.dataTypes.constructor? name = some (d, c) →
    ∀ t ∈ c.fields, t.RowsSorted
  fields : ∀ {name d c}, reg.dataTypes.constructor? name = some (d, c) →
    ∀ t ∈ c.fields, t.Over fun x => ∃ v ∈ d.paramVars, x = .type v

section Environments

variable {env : Env} {reg : Registry} {f f' : Fresh} {σ : Scheme} {P : Region} {name : String}

theorem Scheme.Usable.later (h : σ.Usable f) (hlater : f.Later f') : σ.Usable f' :=
  ⟨h.type.later hlater, fun hx hup => h.quantified hx (hlater.upcoming hup)⟩

theorem Scheme.usable_mono {t : Ty} (h : t.Usable f) : (Scheme.mono t).Usable f :=
  ⟨h, fun hx => (List.not_mem_nil hx).elim⟩

theorem Env.Usable.later (h : env.Usable f) (hlater : f.Later f') : env.Usable f' :=
  ⟨fun σ hσ => (h.locals σ hσ).later hlater, fun hσ => (h.globals hσ).later hlater, h.closed⟩

theorem Registry.Usable.later (h : reg.Usable f) (hlater : f.Later f') : reg.Usable f' :=
  ⟨fun hc v hv hup => h.params hc v hv (hlater.upcoming hup), h.sorted, h.fields⟩

theorem Env.Usable.push (h : env.Usable f) : env.push.Usable f :=
  ⟨h.locals, h.globals, h.closed⟩

theorem Env.Usable.bind (h : env.Usable f) {name : String} {σ : Scheme} (hσ : σ.Usable f) :
    (env.bind name σ).Usable f where
  locals τ hτ := (Env.mem_locals_bind hτ).elim (fun heq => heq ▸ hσ) (h.locals τ)
  globals hτ := h.globals (by simpa using hτ)
  closed hτ := h.closed (by simpa using hτ)

theorem Env.Usable.bindAll (h : env.Usable f) {bindings : List (String × Ty)}
    (hb : ∀ b ∈ bindings, b.2.Usable f) : (env.bindAll bindings).Usable f where
  locals τ hτ := by
    rcases Env.mem_locals_bindAll hτ with ⟨b, hmem, rfl⟩ | hτ
    · exact Scheme.usable_mono (hb b hmem)
    · exact h.locals τ hτ
  globals hτ := h.globals (by simpa using hτ)
  closed hτ := h.closed (by simpa using hτ)

theorem Env.Over.push (h : env.Over P) : env.push.Over P := h

theorem Env.Over.bind (h : env.Over P) (hσ : ∀ x, σ.Free x → P x) : (env.bind name σ).Over P :=
  fun τ hτ => (Env.mem_locals_bind hτ).elim (fun heq => heq ▸ hσ) (h τ)

theorem Env.Over.bindAll (h : env.Over P) {bindings : List (String × Ty)}
    (hb : ∀ b ∈ bindings, b.2.Over P) :
    (env.bindAll bindings).Over P := by
  intro τ hτ
  rcases Env.mem_locals_bindAll hτ with ⟨b, hmem, rfl⟩ | hτ
  · exact fun x hx => hb b hmem x hx.1
  · exact h τ hτ

theorem Env.Usable.get? (h : env.Usable f) (hσ : env.get? name = some σ) : σ.Usable f := by
  rcases Env.get?_eq_some hσ with hlocal | hglobal
  · exact h.locals σ hlocal
  · exact h.globals hglobal

/-- The free variables of what a name may stand for are in every region of the environment. -/
theorem Env.Usable.free_over (h : env.Usable f) (hP : env.Over P) (hσ : env.get? name = some σ)
    {x : Var} (hx : σ.Free x) : P x := by
  rcases Env.get?_eq_some hσ with hlocal | hglobal
  · exact hP σ hlocal x hx
  · exact (h.closed hglobal x hx).elim

end Environments

/-! ## States -/

/-- The supply of the state. -/
abbrev InferState.fresh (st : InferState) : Fresh := st.unifier.fresh

theorem InferState.fresh_note (st : InferState) (event : InferEvent) :
    (st.note event).fresh = st.fresh :=
  congrArg Unifier.fresh (st.unifier_note event)

/-- A state in which inference may go on. -/
structure InferState.Valid (reg : Registry) (st : InferState) : Prop where
  subst : st.subst.Valid st.fresh
  env : st.env.Usable st.fresh
  reg : reg.Usable st.fresh

/-- The region has all variables to come and is closed under the bindings. -/
structure InferState.Inside (st : InferState) (P : Region) : Prop where
  upcoming : ∀ {x}, st.fresh.Upcoming x → P x
  closed : st.subst.ClosedOn P

/-- The quantified variables of every local scheme are outside some region that inference stays in
and of which `I` holds. -/
def InferState.Apart (st : InferState) (I : Region → Prop) : Prop :=
  ∀ σ ∈ st.env.locals, ∃ P : Region, st.Inside P ∧ st.env.Over P ∧ I P ∧ ∀ x ∈ σ.quantified, ¬ P x

/-- What an inference leaves to be settled at its end: obligations and choices by patterns. -/
def InferState.unsettled (st : InferState) : List Obligation × List PendingCases :=
  (st.obligations, st.pending)

/-- The state with a new scope. -/
def Infer.opened (st : InferState) : InferState :=
  { st with env := st.env.push }

open Infer (opened)

variable {reg : Registry} {st : InferState} {I : Region → Prop}

theorem InferState.Valid.push (h : st.Valid reg) : (opened st).Valid reg :=
  ⟨h.subst, h.env.push, h.reg⟩

theorem InferState.Apart.push (h : st.Apart I) : (opened st).Apart I := by
  intro σ hσ
  obtain ⟨P, hP, hrest⟩ := h σ hσ
  exact ⟨P, ⟨hP.1, hP.2⟩, hrest⟩

theorem InferState.Inside.congr {st' : InferState} {P : Region} (h : st.Inside P)
    (hsubst : st'.subst = st.subst) (hfresh : st'.fresh = st.fresh) : st'.Inside P where
  upcoming hx := h.upcoming (hfresh ▸ hx)
  closed := hsubst ▸ h.closed

namespace Infer

/-- A computation leads from the first state to the second one. It stays in every region of which
its inputs `I` hold, binds only variables there, and then has outputs `O` over the region. -/
structure Advances (st st' : InferState) (I O : Region → Prop) : Prop where
  valid : st'.subst.Valid st'.fresh
  later : st.fresh.Later st'.fresh
  keeps : st.subst.Extends st'.subst
  binds : ∀ P, st.Inside P → I P → ∀ x, st'.subst.Binds x → st.subst.Binds x ∨ P x
  inside : ∀ P, st.Inside P → I P → st'.Inside P ∧ O P

/-- A computation leads from the first state to the second one and leaves the environment as it
was. -/
structure Stays (st st' : InferState) (I O : Region → Prop) : Prop extends Advances st st' I O where
  env : st'.env = st.env

/-- Nor does the computation leave anything more to be settled. -/
structure Runs (st st' : InferState) (I O : Region → Prop) : Prop extends Stays st st' I O where
  unsettled : st'.unsettled = st.unsettled

variable {st st₁ st₂ : InferState} {I I' O O' : Region → Prop}

namespace Advances

theorem trans (h : Advances st st₁ I O) (h' : Advances st₁ st₂ I' O')
    (hI : ∀ P, I P → O P → I' P) : Advances st st₂ I fun P => O P ∧ O' P where
  valid := h'.valid
  later := h.later.trans h'.later
  keeps := h.keeps.trans h'.keeps
  binds P hst hIP x hx := by
    obtain ⟨hst₁, hO⟩ := h.inside P hst hIP
    exact (h'.binds P hst₁ (hI P hIP hO) x hx).elim (h.binds P hst hIP x) .inr
  inside P hst hIP := by
    obtain ⟨hst₁, hO⟩ := h.inside P hst hIP
    obtain ⟨hst₂, hO'⟩ := h'.inside P hst₁ (hI P hIP hO)
    exact ⟨hst₂, hO, hO'⟩

theorem imp (h : Advances st st₁ I O) (hI : ∀ P, I' P → I P)
    (hO : ∀ P, st.Inside P → I' P → O P → O' P) : Advances st st₁ I' O' where
  valid := h.valid
  later := h.later
  keeps := h.keeps
  binds P hst hIP := h.binds P hst (hI P hIP)
  inside P hst hIP := by
    obtain ⟨hst₁, hOP⟩ := h.inside P hst (hI P hIP)
    exact ⟨hst₁, hO P hst hIP hOP⟩

/-- What absorbs the later substitution absorbs the earlier one. -/
theorem absorbs (h : Advances st st₁ I O) (hst : st.subst.Valid st.fresh) {U : Valuation}
    (hU : U.Absorbs st₁.subst) : U.Absorbs st.subst :=
  h.keeps.absorbs hst.acyclic h.valid.acyclic hU

end Advances

namespace Runs

theorem refl (h : st.subst.Valid st.fresh) (hIO : ∀ P, I P → O P) : Runs st st I O :=
  ⟨⟨⟨h, .refl _, .refl _, fun _ _ _ _ hx => .inl hx, fun P hst hI => ⟨hst, hIO P hI⟩⟩, rfl⟩, rfl⟩

theorem trans (h : Runs st st₁ I O) (h' : Runs st₁ st₂ I' O') (hI : ∀ P, I P → O P → I' P) :
    Runs st st₂ I fun P => O P ∧ O' P :=
  ⟨⟨h.toAdvances.trans h'.toAdvances hI, h'.env.trans h.env⟩, h'.unsettled.trans h.unsettled⟩

theorem imp (h : Runs st st₁ I O) (hI : ∀ P, I' P → I P)
    (hO : ∀ P, st.Inside P → I' P → O P → O' P) : Runs st st₁ I' O' :=
  ⟨⟨h.toAdvances.imp hI hO, h.env⟩, h.unsettled⟩

end Runs

namespace Stays

theorem validState {reg : Registry} (h : Stays st st₁ I O) (hst : st.Valid reg) : st₁.Valid reg :=
  ⟨h.valid, h.env ▸ hst.env.later h.later, hst.reg.later h.later⟩

/-- Local schemes stay apart as long as the environment is the same. -/
theorem apart (h : Stays st st₁ I O) (hst : st.Apart I') (hI : ∀ P, st.env.Over P → I' P → I P) :
    st₁.Apart fun P => I' P ∧ O P := by
  intro σ hσ
  rw [h.env] at hσ ⊢
  obtain ⟨P, hP, hover, hI', hq⟩ := hst σ hσ
  obtain ⟨hP₁, hO⟩ := h.inside P hP (hI P hover hI')
  exact ⟨P, hP₁, hover, ⟨hI', hO⟩, hq⟩

end Stays

end Infer

theorem InferState.Apart.imp {I' : Region → Prop} (h : st.Apart I) (hI : ∀ P, I P → I' P) :
    st.Apart I' := by
  intro σ hσ
  obtain ⟨P, hP, hover, hIP, hq⟩ := h σ hσ
  exact ⟨P, hP, hover, hI P hIP, hq⟩

/-! ## Where inference may start -/

/-- No variable that a local scheme quantifies can be reached from a free variable of a local
scheme. Otherwise a variable in use would pass for a quantified one and be generalised. -/
def InferState.Separate (st : InferState) : Prop :=
  ∀ σ ∈ st.env.locals, ∀ τ ∈ st.env.locals, ∀ x, τ.Free x →
    ∀ y, Relation.ReflTransGen st.subst.LeadsTo x y → y ∉ σ.quantified

/-- A state in which inference may start: nothing mentions a variable that is still to be drawn, the
substitution is acyclic, and bound and free variables of the local schemes are kept separate. -/
structure InferState.WellFormed (reg : Registry) (st : InferState) : Prop extends st.Valid reg where
  separate : st.Separate

theorem InferState.WellFormed.apart (h : st.WellFormed reg) : st.Apart fun _ => True := by
  intro σ hσ
  -- the region of all variables from which no variable quantified by `σ` can be reached
  refine ⟨fun x => ∀ y, Relation.ReflTransGen st.subst.LeadsTo x y → y ∉ σ.quantified,
    ⟨fun {x} hx y hpath hq => ?_, fun x y hx hxy z hpath => hx z (.head hxy hpath)⟩,
    fun τ hτ => h.separate σ hσ τ hτ, trivial, fun x hx hP => hP x .refl hx⟩
  -- nothing is bound to a variable to come, and no scheme quantifies it
  rcases Relation.ReflTransGen.cases_head hpath with rfl | ⟨z, hxz, -⟩
  · exact (h.env.locals σ hσ).quantified hq hx
  · exact h.subst.unmentioned hx (.inl hxz.binds)

theorem InferState.Apart.separate (h : st.Apart I) : st.Separate := by
  intro σ hσ τ hτ x hx y hpath hq
  obtain ⟨P, hP, hover, -, hout⟩ := h σ hσ
  exact hout y hq (hP.closed.of_path (hover τ hτ x hx) hpath)

/-- Inference may start with names of the whole module only. -/
theorem InferState.wellFormed_start {fresh : Fresh} {env : Env} (hfresh : fresh.Distinct)
    (henv : env.Usable fresh) (hlocals : env.locals = []) (hreg : reg.Usable fresh) :
    (InferState.start fresh env).WellFormed reg where
  subst := ⟨Subst.acyclic_empty, Subst.rowsSorted_empty, hfresh, fun _ => Subst.not_mentions_empty⟩
  env := henv
  reg := hreg
  separate σ hσ := by
    change σ ∈ env.locals at hσ
    rw [hlocals] at hσ
    cases hσ

end RowTyping
