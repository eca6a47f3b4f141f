import Mathlib.Tactic.Tauto
import RowTyping.Proofs.Unify.Step

/-!
# Unification finds solutions

A configuration is valid when its bindings have no cycle, its equations are resolved by the
bindings, all rows are sorted and the tails still to be drawn are unused. A step keeps a
configuration valid and only adds bindings over variables of the equations and drawn tails
(`Unify.Step.reaches`). Whatever respects the new bindings and solves the remaining equations solves
the equations before the step (`Unify.Step.holds`). Both carry over to whole runs, so a successful
unification returns an acyclic extension that makes both sides equal.
-/

namespace RowTyping

open List

/-! ## Bindings made by one step -/

namespace Subst

variable {s : Subst}

theorem Acyclic.bindType (hs : s.Acyclic) {v : TypeVar} {t : Ty} (hv : v ∉ t.typeOccurrences)
    (ht : ∀ x ∈ t.occurrences, ¬ s.Binds x) : (s.bindType v t).Acyclic := by
  -- the new binding leads to unbound variables only, so no cycle passes through it
  refine hs.of_sinks fun x y hxy => ?_
  rcases leadsTo_bindType hxy with ⟨-, hy⟩ | hxy
  · refine .inr fun hbinds => ?_
    rcases binds_bindType.mp hbinds with rfl | hbinds
    · exact hv (Equation.mem_typeOccurrences.mpr hy)
    · exact ht y hy hbinds
  · exact .inl hxy

end Subst

namespace Unify

namespace RowStep

variable {a b : Row} {s s' : Subst} {f f' : Fresh}

theorem later (h : RowStep a b s f s' f') : f.Later f' := by
  induction h with
  | refl | closed | close | join => exact .refl _
  | share => exact Fresh.later_effectVar _
  | symm _ ih => exact ih

theorem types_eq (h : RowStep a b s f s' f') : s'.types = s.types := by
  induction h with
  | refl | closed | close | join | share => rfl
  | symm _ ih => exact ih

private theorem mem_occurrences_symm {x : Var} (h : x ∈ (Equation.rows b a).occurrences) :
    x ∈ (Equation.rows a b).occurrences :=
  mem_append.mpr (mem_append.mp h).symm

/-- A step between rows binds at most their tails, to sorted rows whose own tails it does not
bind. -/
theorem effects (h : RowStep a b s f s' f') (hf : f.Distinct)
    (hapart : ∀ e, f.Upcoming (.effect e) → .effect e ∉ (Equation.rows a b).occurrences)
    (e : EffectVar) :
    s'.effects.get? e = s.effects.get? e ∨
      .effect e ∈ (Equation.rows a b).occurrences ∧ ∃ row, s'.effects.get? e = some row ∧
        row.IsSorted ∧ ∀ z, row.tail = some z → s'.effects.get? z = s.effects.get? z ∧
          (.effect z ∈ (Equation.rows a b).occurrences ∨ f.HandedOut f' (.effect z)) := by
  induction h with
  | refl | closed => exact .inl rfl
  | @close a b s f r ha hb =>
    by_cases he : e = r
    · subst he
      refine .inr ⟨by simp [Equation.occurrences, ha], .closed (b.labelsNotIn a),
        by simp [Subst.bindEffect], Row.isSorted_closed _, ?_⟩
      rintro z ⟨⟩
    · exact .inl (by simp [Subst.bindEffect, he])
  | @join a b s f r r' ha hb hne =>
    by_cases he : e = r
    · subst he
      refine .inr ⟨by simp [Equation.occurrences, ha], .ofVar r', by simp [Subst.bindEffect],
        Row.isSorted_ofVar _, ?_⟩
      rintro z ⟨⟩
      exact ⟨by simp [Subst.bindEffect, hne.symm], .inl (by simp [Equation.occurrences, hb])⟩
    · exact .inl (by simp [Subst.bindEffect, he])
  | @share a b s f r r' ha hb hne =>
    -- the drawn tail is neither of the two tails, so it stays as it is
    have hz := hapart _ f.upcoming_effectVar
    have hzr : f.effectVar.1 ≠ r := by
      intro h
      exact hz (by simp [Equation.occurrences, ha, h])
    have hzr' : f.effectVar.1 ≠ r' := by
      intro h
      exact hz (by simp [Equation.occurrences, hb, h])
    by_cases he' : e = r'
    · subst he'
      refine .inr ⟨by simp [Equation.occurrences, hb],
        .extensible (a.labelsNotIn b) f.effectVar.1, by simp [Subst.bindEffect],
        Row.isSorted_extensible _ _, ?_⟩
      rintro z ⟨⟩
      exact ⟨by simp [Subst.bindEffect, hzr, hzr'], .inr hf.handedOut_effectVar⟩
    · by_cases he : e = r
      · subst he
        refine .inr ⟨by simp [Equation.occurrences, ha],
          .extensible (b.labelsNotIn a) f.effectVar.1, by simp [Subst.bindEffect, hne],
          Row.isSorted_extensible _ _, ?_⟩
        rintro z ⟨⟩
        exact ⟨by simp [Subst.bindEffect, hzr, hzr'], .inr hf.handedOut_effectVar⟩
      · exact .inl (by simp [Subst.bindEffect, he, he'])
  | symm _ ih =>
    rcases ih hf fun e he h => hapart e he (mem_occurrences_symm h) with h | ⟨he, row, h⟩
    · exact .inl h
    · exact .inr ⟨mem_occurrences_symm he, row, h.1, h.2.1, fun z hz =>
        ⟨(h.2.2 z hz).1, (h.2.2 z hz).2.imp_left mem_occurrences_symm⟩⟩

/-- A step between rows with unbound tails adds bindings over the tails and drawn variables. -/
theorem grows (h : RowStep a b s f s' f') (hf : f.Distinct)
    (hapart : ∀ e, f.Upcoming (.effect e) → .effect e ∉ (Equation.rows a b).occurrences)
    (hunbound : ∀ x ∈ (Equation.rows a b).occurrences, ¬ s.Binds x) :
    s.Grows s' fun x => x ∈ (Equation.rows a b).occurrences ∨ f.HandedOut f' x where
  keeps :=
    { types := fun ht => h.types_eq ▸ ht
      effects := fun {e r} hr => by
        rcases h.effects hf hapart e with heq | ⟨he, -⟩
        · rw [heq, hr]
        · exact (hunbound _ he (by simp [Subst.Binds, hr])).elim }
  binds {x} hx := by
    rcases x with v | e
    · exact .inl (by simpa [Subst.Binds, h.types_eq] using hx)
    · rcases h.effects hf hapart e with heq | ⟨he, -⟩
      · exact .inl (by simpa [Subst.Binds, heq] using hx)
      · exact .inr (.inl he)
  leads {x y} hxy := by
    rcases Subst.leadsTo_iff.mp hxy with ⟨v, t, rfl, ht, hy⟩ | ⟨e, r, z, rfl, hr, hz, rfl⟩
    · exact .inl (Subst.leadsTo_of_types (h.types_eq ▸ ht) hy)
    · rcases h.effects hf hapart e with heq | ⟨he, row, hrow, -, htail⟩
      · exact .inl (Subst.leadsTo_of_effects (heq ▸ hr) hz)
      · obtain rfl : r = row := Option.some.inj (hr.symm.trans hrow)
        exact .inr ⟨.inl he, (htail z hz).2⟩

/-- The bindings of a step between rows with unbound tails lead to unbound variables. -/
theorem sinks (h : RowStep a b s f s' f') (hf : f.Distinct) (hapart : ∀ e, f.Upcoming (.effect e) →
      ¬ s.Binds (.effect e) ∧ .effect e ∉ (Equation.rows a b).occurrences)
    (hunbound : ∀ x ∈ (Equation.rows a b).occurrences, ¬ s.Binds x) {x y : Var}
    (hxy : s'.LeadsTo x y) : s.LeadsTo x y ∨ ¬ s'.Binds y := by
  rcases Subst.leadsTo_iff.mp hxy with ⟨v, t, rfl, ht, hy⟩ | ⟨e, r, z, rfl, hr, hz, rfl⟩
  · exact .inl (Subst.leadsTo_of_types (h.types_eq ▸ ht) hy)
  · rcases h.effects hf (fun e he => (hapart e he).2) e with heq | ⟨he, row, hrow, -, htail⟩
    · exact .inl (Subst.leadsTo_of_effects (heq ▸ hr) hz)
    · obtain rfl : r = row := Option.some.inj (hr.symm.trans hrow)
      obtain ⟨hkept, hz⟩ := htail z hz
      have hzunbound : ¬ s.Binds (.effect z) :=
        hz.elim (hunbound _) fun hz => (hapart z hz.1).1
      exact .inr (by simpa [Subst.Binds, hkept] using hzunbound)

theorem rowsSorted (h : RowStep a b s f s' f') (hs : s.RowsSorted) (hf : f.Distinct)
    (hapart : ∀ e, f.Upcoming (.effect e) → .effect e ∉ (Equation.rows a b).occurrences) :
    s'.RowsSorted where
  types ht := hs.types (h.types_eq ▸ ht)
  effects {e r} hr := by
    rcases h.effects hf hapart e with heq | ⟨-, row, hrow, hsorted, -⟩
    · exact hs.effects (heq ▸ hr)
    · obtain rfl : r = row := Option.some.inj (hr.symm.trans hrow)
      exact hsorted

end RowStep

/-! ## Valid configurations -/

namespace Config

/-- The variable occurs in an equation that remains. -/
def Mentions (c : Config) (x : Var) : Prop :=
  ∃ eq ∈ c.eqs, x ∈ eq.occurrences

/-- What unification relies on between two equations. -/
structure Valid (c : Config) : Prop where
  /-- The bindings have no cycle. -/
  acyclic : c.subst.Acyclic
  /-- The equations mention no bound variable. -/
  resolved : ∀ {x}, c.Mentions x → ¬ c.subst.Binds x
  /-- The tails to be drawn do not occur in the bindings. -/
  unmentioned : ∀ {e}, c.fresh.Upcoming (.effect e) → ¬ c.subst.Mentions (.effect e)
  /-- The tails to be drawn do not occur in the equations. -/
  unused : ∀ {e}, c.fresh.Upcoming (.effect e) → ¬ c.Mentions (.effect e)
  /-- No tail will be drawn twice. -/
  distinct : c.fresh.Distinct
  /-- The bound rows are sorted. -/
  substSorted : c.subst.RowsSorted
  /-- The rows of the equations are sorted. -/
  eqsSorted : ∀ eq ∈ c.eqs, eq.RowsSorted

/-- The variable occurs in the equations or is drawn on the way to a later configuration. -/
def Touches (c c' : Config) (x : Var) : Prop :=
  c.Mentions x ∨ c.fresh.HandedOut c'.fresh x

/-- A later configuration, with bindings and equations over the variables touched on the way. -/
structure Reaches (c c' : Config) : Prop where
  valid : c'.Valid
  grows : c.subst.Grows c'.subst (c.Touches c')
  mentions : ∀ {x}, c'.Mentions x → c.Touches c' x
  later : c.fresh.Later c'.fresh

variable {c : Config}

theorem Valid.reaches (h : c.Valid) : c.Reaches c :=
  ⟨h, .refl _ _, .inl, .refl _⟩

/-- Tails that are not drawn stay unused when bindings and equations stay among the variables
touched on the way. -/
theorem Valid.reaches_of {c' : Config} (hc : c.Valid) (hlater : c.fresh.Later c'.fresh)
    (hgrows : c.subst.Grows c'.subst (c.Touches c'))
    (hmentions : ∀ {x}, c'.Mentions x → c.Touches c' x)
    (hacyclic : c'.subst.Acyclic) (hresolved : ∀ {x}, c'.Mentions x → ¬ c'.subst.Binds x)
    (hsubst : c'.subst.RowsSorted) (heqs : ∀ eq ∈ c'.eqs, eq.RowsSorted) : c.Reaches c' := by
  -- a tail still to be drawn was so before, when nothing mentioned it, and is not drawn on the way
  have huntouched {e : EffectVar} (he : c'.fresh.Upcoming (.effect e)) :
      ¬ c.Touches c' (.effect e) := by
    rintro (hx | hx)
    · exact hc.unused (hlater.upcoming he) hx
    · exact hx.2 he
  refine ⟨⟨hacyclic, hresolved, fun he hx => ?_, fun he hx => huntouched he (hmentions hx),
    hlater.distinct hc.distinct, hsubst, heqs⟩, hgrows, hmentions, hlater⟩
  exact (hgrows.mentions hx).elim (hc.unmentioned (hlater.upcoming he)) (huntouched he)

theorem Reaches.touches {c' c'' : Config} (h : c.Reaches c') (hlater : c'.fresh.Later c''.fresh)
    {x : Var} (hx : c'.Touches c'' x) : c.Touches c'' x := by
  rcases hx with hx | hx
  · exact (h.mentions hx).imp_right fun hx => hx.later hlater
  · exact .inr (hx.earlier h.later)

theorem Reaches.trans {c c' c'' : Config} (h : c.Reaches c') (h' : c'.Reaches c'') :
    c.Reaches c'' where
  valid := h'.valid
  grows := (h.grows.mono fun hx => hx.imp_right fun hx => hx.later h'.later).trans
    (h'.grows.mono (h.touches h'.later))
  mentions hx := h.touches h'.later (h'.mentions hx)
  later := h.later.trans h'.later

end Config

/-! ### The valuations behind replacing a variable and resolving rows -/

/-- One type variable stands for a type, everything else for itself. -/
def replacing (v : TypeVar) (t : Ty) : Valuation :=
  ⟨fun w => if w = v then t else .var w, fun _ => none⟩

/-- Tails stand for what they are bound to, type variables for themselves. -/
def rowsOnly (s : Subst) : Valuation :=
  ⟨.var, s.valuation.effects⟩

variable {eqs rest : List Equation} {t a b : Ty} {v : TypeVar} {s s' : Subst} {x : Var}
  {f f' : Fresh} {c c' : Config} {V : Valuation} {eq : Equation}

theorem mem_replaceAll {eq' : Equation} :
    eq' ∈ Equation.replaceAll v t eqs ↔ ∃ eq ∈ eqs, eq.under (replacing v t) = eq' :=
  mem_map

theorem mem_resolveAllRows {eq' : Equation} :
    eq' ∈ Equation.resolveAllRows s eqs ↔ ∃ eq ∈ eqs, eq.under (rowsOnly s) = eq' :=
  mem_map

theorem mem_image_replacing {y : Var} (h : x ∈ (replacing v t).image y) :
    y = .type v ∧ x ∈ t.occurrences ∨ y ≠ .type v ∧ x = y := by
  rcases y with w | e
  · by_cases hw : w = v
    · exact .inl ⟨by rw [hw], by simpa [Valuation.image, replacing, hw] using h⟩
    · exact .inr ⟨by simpa using hw,
        by simpa [Valuation.image, replacing, hw, Ty.occurrences] using h⟩
  · exact .inr ⟨by simp, by
      simpa [Valuation.image, Valuation.row_of_none (V := replacing v t) rfl, Row.ofVar] using h⟩

theorem mem_image_rowsOnly {y : Var} (h : x ∈ (rowsOnly s).image y) :
    (∃ v, y = .type v) ∧ x = y ∨ x ∈ s.valuation.image y := by
  rcases y with v | e
  · exact .inl ⟨⟨v, rfl⟩, by simpa [Valuation.image, rowsOnly, Ty.occurrences] using h⟩
  · exact .inr h

/-! ### One step -/

/-- Equations of the same variables and rows keep a configuration valid. -/
private theorem reaches_of_eqs {eqs' : List Equation} (hc : Config.Valid ⟨s, eqs, f⟩)
    (hocc : ∀ eq ∈ eqs', ∀ x ∈ eq.occurrences, Config.Mentions ⟨s, eqs, f⟩ x)
    (hsorted : ∀ eq ∈ eqs', eq.RowsSorted) :
    Config.Reaches ⟨s, eqs, f⟩ ⟨s, eqs', f⟩ :=
  hc.reaches_of (.refl f) (.refl s _) (fun ⟨eq, heq, hx⟩ => .inl (hocc eq heq _ hx)) hc.acyclic
    (fun ⟨eq, heq, hx⟩ => hc.resolved (hocc eq heq _ hx)) hc.substSorted hsorted

private theorem reaches_rows {a b : Row} (h : RowStep a b s f s' f')
    (hc : Config.Valid ⟨s, .rows a b :: rest, f⟩) :
    Config.Reaches ⟨s, .rows a b :: rest, f⟩ ⟨s', Equation.resolveAllRows s' rest, f'⟩ := by
  have hhead {x : Var} (hx : x ∈ (Equation.rows a b).occurrences) :
      Config.Mentions ⟨s, .rows a b :: rest, f⟩ x := ⟨_, .head _, hx⟩
  have hunbound {x : Var} (hx : x ∈ (Equation.rows a b).occurrences) := hc.resolved (hhead hx)
  have hapart (e : EffectVar) (he : f.Upcoming (.effect e)) :
      ¬ s.Binds (.effect e) ∧ .effect e ∉ (Equation.rows a b).occurrences :=
    ⟨fun h => hc.unmentioned he (.inl h), fun hx => hc.unused he (hhead hx)⟩
  have hunused := fun e he => (hapart e he).2
  have hsinks {x y : Var} (hxy : s'.LeadsTo x y) :=
    h.sinks hc.distinct hapart (fun _ => hunbound) hxy
  have hgrows := h.grows hc.distinct hunused fun _ => hunbound
  have hacyclic : s'.Acyclic := hc.acyclic.of_sinks fun _ _ => hsinks
  have hsorted := h.rowsSorted hc.substSorted hc.distinct hunused
  -- resolving replaces a tail by a variable that the step has just bound it to, if at all
  have himage {eq : Equation} (heq : eq ∈ Equation.resolveAllRows s' rest) {x : Var}
      (hx : x ∈ eq.occurrences) :
      (Config.Mentions ⟨s, .rows a b :: rest, f⟩ x ∨ f.HandedOut f' x) ∧ ¬ s'.Binds x := by
    obtain ⟨eq₀, heq₀, rfl⟩ := mem_resolveAllRows.mp heq
    obtain ⟨y, hy, hx⟩ := Equation.mem_occurrences_under.mp hx
    have hmention : Config.Mentions ⟨s, .rows a b :: rest, f⟩ y :=
      ⟨eq₀, .tail _ heq₀, hy⟩
    have hyunbound : ¬ s.Binds y := hc.resolved hmention
    rcases mem_image_rowsOnly hx with ⟨⟨v, rfl⟩, rfl⟩ | hx
    · exact ⟨.inl hmention, by simpa [Subst.Binds, h.types_eq] using hyunbound⟩
    · obtain ⟨hpath, hxunbound⟩ := hacyclic.mem_image hx
      refine ⟨?_, hxunbound⟩
      -- a path from an unbound variable has at most one binding, the one the step has added
      rcases hpath.cases_head with rfl | ⟨z, hyz, hpath⟩
      · exact .inl hmention
      · have hzsink := (hsinks hyz).resolve_left fun hyz => hyunbound hyz.binds
        rcases hpath.cases_head with rfl | ⟨w, hzw, -⟩
        · rcases hgrows.leads hyz with hyz | ⟨-, hz⟩
          · exact (hyunbound hyz.binds).elim
          · exact hz.imp_left hhead
        · exact (hzsink hzw.binds).elim
  refine hc.reaches_of h.later (hgrows.mono fun hx => hx.imp_left hhead) ?_ hacyclic ?_ hsorted
    fun eq heq => ?_
  · rintro x ⟨eq, heq, hx⟩
    exact (himage heq hx).1
  · rintro x ⟨eq, heq, hx⟩
    exact (himage heq hx).2
  obtain ⟨eq₀, heq₀, rfl⟩ := mem_resolveAllRows.mp heq
  refine (hc.eqsSorted eq₀ (.tail _ heq₀)).under fun v _ r hr => ?_
  exact (not_mem_nil hr).elim

section Bind

variable (hab : a = .var v ∧ b = t ∨ a = t ∧ b = .var v)
include hab

theorem rowsSorted_bound (h : (Equation.types a b).RowsSorted) : t.RowsSorted := by
  obtain ⟨ha, hb⟩ := forall_mem_append.mp h
  rcases hab with ⟨-, rfl⟩ | ⟨rfl, -⟩
  · exact hb
  · exact ha

/-- The variable that is bound and the variables of its type are mentioned. -/
theorem mentions_sides (hx : x = .type v ∨ x ∈ t.occurrences) :
    Config.Mentions ⟨s, .types a b :: rest, f⟩ x := by
  refine ⟨_, .head _, ?_⟩
  rcases hab with ⟨rfl, rfl⟩ | ⟨rfl, rfl⟩
  · simpa [Equation.occurrences, Ty.occurrences] using hx
  · simpa [Equation.occurrences, Ty.occurrences] using hx.symm

/-- A variable that remains after a binding comes from the type or is a different one, so it was
mentioned and is not the one that is bound. -/
theorem mentions_of_bind
    (hv : v ∉ t.typeOccurrences)
    (hx : Config.Mentions ⟨s.bindType v t, Equation.replaceAll v t rest, f⟩ x) :
    Config.Mentions ⟨s, .types a b :: rest, f⟩ x ∧ (¬ s.Binds x → ¬ (s.bindType v t).Binds x) := by
  have hother (hne : x ≠ .type v) (hunbound : ¬ s.Binds x) :
      ¬ (s.bindType v t).Binds x := fun hbinds =>
    (Subst.binds_bindType.mp hbinds).elim hne hunbound
  obtain ⟨eq, heq, hx⟩ := hx
  obtain ⟨eq₀, heq₀, rfl⟩ := mem_replaceAll.mp heq
  obtain ⟨y, hy, hx⟩ := Equation.mem_occurrences_under.mp hx
  rcases mem_image_replacing hx with ⟨-, hxt⟩ | ⟨hne, rfl⟩
  · exact ⟨mentions_sides hab (.inr hxt),
      hother fun heq => hv (Equation.mem_typeOccurrences.mpr (heq ▸ hxt))⟩
  · exact ⟨⟨eq₀, .tail _ heq₀, hy⟩, hother hne⟩

private theorem reaches_bind
    (hv : v ∉ t.typeOccurrences) (hc : Config.Valid ⟨s, .types a b :: rest, f⟩) :
    Config.Reaches ⟨s, .types a b :: rest, f⟩
      ⟨s.bindType v t, Equation.replaceAll v t rest, f⟩ := by
  have htsorted := rowsSorted_bound hab (hc.eqsSorted _ (.head _))
  have hgrows : s.Grows (s.bindType v t) (Config.Mentions ⟨s, .types a b :: rest, f⟩) :=
    Subst.grows_bindType (hc.resolved (mentions_sides hab (.inl rfl)))
      (mentions_sides hab (.inl rfl)) fun x hx => mentions_sides hab (.inr hx)
  refine hc.reaches_of (.refl f) (hgrows.mono .inl) ?_
    (hc.acyclic.bindType hv fun x hx => hc.resolved (mentions_sides hab (.inr hx))) ?_
    ⟨fun {w u} hw => ?_, hc.substSorted.effects⟩ fun eq heq => ?_
  · exact fun hx => .inl (mentions_of_bind hab hv hx).1
  · intro x hx
    obtain ⟨hmention, hunbound⟩ := mentions_of_bind hab hv hx
    exact hunbound (hc.resolved hmention)
  · by_cases hwv : w = v
    · obtain rfl : t = u := by simpa [Subst.bindType, hwv] using hw
      exact htsorted
    · exact hc.substSorted.types (by simpa [Subst.bindType, hwv] using hw)
  · obtain ⟨eq₀, heq₀, rfl⟩ := mem_replaceAll.mp heq
    refine (hc.eqsSorted eq₀ (.tail _ heq₀)).under fun w _ => ?_
    change (if w = v then t else .var w).RowsSorted
    split
    · exact htsorted
    · exact fun r hr => (not_mem_nil hr).elim

end Bind

/-- A step keeps a configuration valid. -/
theorem Step.reaches (h : Step c c') (hc : c.Valid) : c.Reaches c' := by
  cases h with
  | rows h => exact reaches_rows h hc
  | identical =>
    exact reaches_of_eqs hc (fun eq heq x hx => ⟨eq, .tail _ heq, hx⟩)
      fun eq heq => hc.eqsSorted eq (.tail _ heq)
  | bind hab hv => exact reaches_bind hab hv hc
  | decompose h =>
    refine reaches_of_eqs hc (fun eq heq x hx => ?_) fun eq heq => ?_
    · rcases mem_append.mp heq with heq | heq
      · exact ⟨_, .head _, h.mem_occurrences heq hx⟩
      · exact ⟨eq, .tail _ heq, hx⟩
    · rcases mem_append.mp heq with heq | heq
      · exact fun r hr => hc.eqsSorted _ (.head _) r (h.mem_rowsOf heq hr)
      · exact hc.eqsSorted eq (.tail _ heq)

/-- A run keeps a configuration valid. -/
theorem Steps.reaches (h : Steps c c') (hc : c.Valid) : c.Reaches c' := by
  induction h with
  | refl => exact hc.reaches
  | tail _ hstep ih => exact ih.trans (hstep.reaches ih.valid)

/-! ## Solutions of the remaining equations solve the equations before -/

/-- A step between sorted rows makes them equal for whatever respects its bindings. -/
theorem RowStep.holds {a b : Row} (h : RowStep a b s f s' f') (ha : a.IsSorted) (hb : b.IsSorted)
    (hV : V.Models s') :
    a.under V = b.under V := by
  induction h with
  | refl => rfl
  | closed hta htb hab hba =>
    rw [Row.labelsNotIn_eq_nil hb] at hab
    rw [Row.labelsNotIn_eq_nil ha] at hba
    rw [Row.eq_of_isSorted ha hb (fun l => ⟨hab l, hba l⟩) (hta.trans htb.symm)]
  | @close a b s f r hta htb hab =>
    -- the open row has no label of its own, and its tail brings all that it lacks
    have hr : V.row r = (Row.closed (b.labelsNotIn a)).under V :=
      hV.effects (by simp [Subst.bindEffect])
    rw [Row.under_closed] at hr
    rw [Row.labelsNotIn_eq_nil hb] at hab
    refine Row.eq_of_isSorted (ha.under V) (hb.under V) (fun l => ?_) ?_
    · rw [Row.mem_labels_under_of_some hta, hr, Row.under_of_tail_none htb, Row.mem_labels_closed,
        Row.mem_labelsNotIn ha]
      have := hab l
      tauto
    · rw [Row.tail_under_of_some hta, hr, Row.under_of_tail_none htb, htb]
      rfl
  | @join a b s f r r' hta htb hne hab hba =>
    have hr : V.row r = (Row.ofVar r').under V := hV.effects (by simp [Subst.bindEffect])
    rw [← Valuation.row] at hr
    rw [Row.labelsNotIn_eq_nil hb] at hab
    rw [Row.labelsNotIn_eq_nil ha] at hba
    refine Row.eq_of_isSorted (ha.under V) (hb.under V) (fun l => ?_) ?_
    · rw [Row.mem_labels_under_of_some hta, Row.mem_labels_under_of_some htb, hr]
      exact or_congr_left ⟨hab l, hba l⟩
    · rw [Row.tail_under_of_some hta, Row.tail_under_of_some htb, hr]
  | @share a b s f r r' hta htb hne =>
    have hr : V.row r = (Row.extensible (b.labelsNotIn a) f.effectVar.1).under V :=
      hV.effects (by simp [Subst.bindEffect, hne])
    have hr' : V.row r' = (Row.extensible (a.labelsNotIn b) f.effectVar.1).under V :=
      hV.effects (by simp [Subst.bindEffect])
    -- both rows get the labels of either side and what the shared tail stands for
    refine Row.eq_of_isSorted (ha.under V) (hb.under V) (fun l => ?_) ?_
    · rw [Row.mem_labels_under_of_some hta, Row.mem_labels_under_of_some htb, hr, hr',
        Row.mem_labels_under_of_some rfl, Row.mem_labels_under_of_some rfl,
        Row.mem_labels_extensible, Row.mem_labels_extensible, Row.mem_labelsNotIn ha,
        Row.mem_labelsNotIn hb]
      tauto
    · rw [Row.tail_under_of_some hta, Row.tail_under_of_some htb, hr, hr',
        Row.tail_under_of_some rfl, Row.tail_under_of_some rfl]
  | symm _ ih => exact (ih hb ha hV).symm

/-- Replacing a variable by its type changes nothing for what respects the binding. -/
theorem replacing_andThen (h : V.types v = t.under V) : (replacing v t).andThen V = V := by
  refine Valuation.eq_of_agreesAt fun x => ?_
  rcases x with w | e
  · change (if w = v then t else .var w).under V = V.types w
    split
    · rename_i hw
      rw [hw, h]
    · rfl
  · rfl

theorem sameAt_rowsOnly (hs : s.Acyclic) (hrows : s.RowsSorted) (hV : V.Models s) (x : Var) :
    ((rowsOnly s).andThen V).SameAt V x := by
  rcases x with v | e
  · rfl
  · exact hs.sameAt_of_models hrows hV (.effect e)

/-- What respects the bindings after a step and solves the remaining equations solves the equations
before it. -/
theorem Step.holds (h : Step c c') (hc : c.Valid) (hV : V.Models c'.subst)
    (heqs : ∀ eq ∈ c'.eqs, eq.Holds V) :
    ∀ eq ∈ c.eqs, eq.Holds V := by
  have hreach := h.reaches hc
  cases h with
  | @rows a b s s' f f' rest h =>
    refine forall_mem_cons.mpr ⟨?_, fun eq heq => ?_⟩
    · have hsorted := hc.eqsSorted _ (.head _)
      exact h.holds (hsorted a (by simp [Equation.rowsOf]))
        (hsorted b (by simp [Equation.rowsOf])) hV
    · have heq' := Equation.holds_under.mp (heqs _ (mem_resolveAllRows.mpr ⟨eq, heq, rfl⟩))
      -- resolving the rows first changes nothing for what respects the new bindings
      have hsame := sameAt_rowsOnly hreach.valid.acyclic hreach.valid.substSorted hV
      exact ((hc.eqsSorted eq (.tail _ heq)).holds_congr fun x _ => hsame x).mp heq'
  | identical => exact forall_mem_cons.mpr ⟨rfl, heqs⟩
  | @bind a b t v s f rest hab hv =>
    have hvt : V.types v = t.under V := hV.types (by simp [Subst.bindType])
    refine forall_mem_cons.mpr ⟨?_, fun eq heq => ?_⟩
    · rcases hab with ⟨rfl, rfl⟩ | ⟨rfl, rfl⟩
      · exact hvt
      · exact hvt.symm
    · have heq' := Equation.holds_under.mp (heqs _ (mem_replaceAll.mpr ⟨eq, heq, rfl⟩))
      rwa [replacing_andThen hvt] at heq'
  | decompose h =>
    obtain ⟨hparts, hrest⟩ := forall_mem_append.mp heqs
    exact forall_mem_cons.mpr ⟨h.holds hparts, hrest⟩

theorem Steps.holds (h : Steps c c') (hc : c.Valid) (hV : V.Models c'.subst)
    (heqs : ∀ eq ∈ c'.eqs, eq.Holds V) :
    ∀ eq ∈ c.eqs, eq.Holds V := by
  -- from the end of the run: only the final bindings are known to be respected
  induction h using Relation.ReflTransGen.head_induction_on with
  | refl => exact heqs
  | head hstep hsteps ih =>
    have hvalid := (hstep.reaches hc).valid
    have hkeeps := (Steps.reaches hsteps hvalid).grows.keeps
    exact hstep.holds hc (hkeeps.models hV) (ih hvalid)

/-! ## Successful unifications -/

/-- What unification relies on when it starts from a substitution and an equation. -/
structure Ready (s : Subst) (eq : Equation) (f : Fresh) : Prop where
  /-- The bindings have no cycle. -/
  acyclic : s.Acyclic
  /-- The bound rows are sorted. -/
  substSorted : s.RowsSorted
  /-- The rows of the equation are sorted. -/
  eqSorted : eq.RowsSorted
  /-- No tail will be drawn twice. -/
  distinct : f.Distinct
  /-- The tails to be drawn occur neither in the bindings nor in the equation. -/
  unused : ∀ {e}, f.Upcoming (.effect e) → ¬ s.Mentions (.effect e) ∧ .effect e ∉ eq.occurrences

/-- The start of the run for an equation. -/
def start (s : Subst) (eq : Equation) (f : Fresh) : Config :=
  ⟨s, [eq.under s.valuation], f⟩

theorem Ready.valid {s : Subst} {eq : Equation} {f : Fresh} (h : Ready s eq f) :
    (start s eq f).Valid where
  acyclic := h.acyclic
  resolved := by
    rintro x ⟨_, heq, hx⟩
    obtain rfl := mem_singleton.mp heq
    obtain ⟨y, -, hx⟩ := Equation.mem_occurrences_under.mp hx
    exact (h.acyclic.mem_image hx).2
  unmentioned he := (h.unused he).1
  unused := by
    rintro e he ⟨_, heq, hx⟩
    obtain rfl := mem_singleton.mp heq
    obtain ⟨y, hy, hx⟩ := Equation.mem_occurrences_under.mp hx
    rcases h.acyclic.mentions_of_mem_image hx with rfl | hmentions
    · exact (h.unused he).2 hy
    · exact (h.unused he).1 hmentions
  distinct := h.distinct
  substSorted := h.substSorted
  eqsSorted := by
    intro _ heq
    obtain rfl := mem_singleton.mp heq
    exact h.eqSorted.under fun v _ => h.substSorted.valuation h.acyclic v

theorem steps_of_types {u u' : Unifier} (h : types s a b u = .ok s' u') :
    Steps (start s (.types a b) u.fresh) ⟨s', [], u'.fresh⟩ := by
  obtain ⟨⟨s'', eqs, f⟩, hsteps, ⟨rfl, u'', hok, rfl⟩ | ⟨-, err, u'', herr⟩⟩ :=
    solve_outcome s [.types (s.apply a) (s.apply b)] u
  · obtain ⟨rfl, rfl⟩ : s'' = s' ∧ u'' = u' := by simpa [types, hok] using h
    exact hsteps
  · simp [types, herr] at h

theorem steps_of_rows {a b : Row} {u u' : Unifier} (h : rows s a b u = .ok s' u') :
    Steps (start s (.rows a b) u.fresh) ⟨s', [], u'.fresh⟩ := by
  rcases solveRows_outcome s (s.applyRow a) (s.applyRow b) u with
    ⟨s'', u'', hok, hstep⟩ | ⟨-, err, u'', herr⟩
  · obtain ⟨rfl, rfl⟩ : s'' = s' ∧ u'' = u' := by simpa [rows, hok] using h
    exact .single (.rows hstep)
  · simp [rows, herr] at h

namespace Ready

variable (h : Ready s eq f) (hsteps : Steps (start s eq f) ⟨s', [], f'⟩)
include h hsteps

/-- Applying the result of a run absorbs an application of the substitution it started from. -/
theorem andThen_eq :
    s.valuation.andThen s'.valuation = s'.valuation := by
  have hreach := Steps.reaches hsteps h.valid
  have hkeeps : s.Extends s' := hreach.grows.keeps
  exact hkeeps.andThen_eq h.acyclic hreach.valid.acyclic

/-- A run to the end extends the substitution so that the equation holds. -/
theorem solved :
    (start s eq f).Reaches ⟨s', [], f'⟩ ∧ eq.Holds s'.valuation := by
  have hreach := Steps.reaches hsteps h.valid
  have hmodels : s'.valuation.Models s' := hreach.valid.acyclic.models hreach.valid.substSorted
  have hholds := Steps.holds hsteps h.valid hmodels (by simp) _ (.head _)
  rw [Equation.holds_under, h.andThen_eq hsteps] at hholds
  exact ⟨hreach, hholds⟩

theorem apply_apply (t : Ty) :
    s'.apply t = s'.apply (s.apply t) := by
  rw [Subst.apply_eq_under, Subst.apply_eq_under, Subst.apply_eq_under, ← Ty.under_andThen,
    h.andThen_eq hsteps]

end Ready

end Unify

end RowTyping
