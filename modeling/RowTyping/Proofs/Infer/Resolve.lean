import RowTyping.Proofs.Infer.Operations
import RowTyping.Proofs.Infer.Stepwise

/-!
# Resolved types

Resolving a written type gives each variable name one drawn variable. The result is what the written
type means when the names stand for these variables (`Resolve.type_ok`), so the written type
describes it and everything it comes to stand for.
-/

namespace RowTyping

open List

namespace Dict

variable {κ α : Type} [DecidableEq κ] {k k' : κ} {a b : α} {as : List (κ × α)}

theorem lookup_append (k : κ) (as bs : List (κ × α)) :
    lookup k (as ++ bs) = (lookup k as).or (lookup k bs) := by
  induction as with
  | nil => rfl
  | cons a as ih =>
    rw [cons_append, lookup, lookup]
    split
    · rfl
    · exact ih

/-- Entries that are there stay when others are added behind them. -/
theorem lookup_append_of_some (h : lookup k as = some a) (bs : List (κ × α)) :
    lookup k (as ++ bs) = some a := by
  rw [lookup_append, h, Option.some_or]

theorem lookup_snoc_self (h : lookup k as = none) (b : α) :
    lookup k (as ++ [(k, b)]) = some b := by
  rw [lookup_append, h, Option.none_or, lookup, if_pos rfl]

end Dict

/-- Names stand for the variables that the scope gives them. -/
structure Naming.Follows (ν : Naming) (scope : TypeScope) : Prop where
  types : ∀ {name v}, scope.type? name = some v → ν.types name = .var v
  effects : ∀ {name e}, scope.effect? name = some e → ν.effects name = .ofVar e

/-- The naming by the variables of a scope. -/
def TypeScope.naming (scope : TypeScope) : Naming where
  types name := ((scope.type? name).map Ty.var).getD (.prim .unit)
  effects name := ((scope.effect? name).map Row.ofVar).getD .pure

theorem TypeScope.naming_follows (scope : TypeScope) : scope.naming.Follows scope where
  types h := by simp [naming, h]
  effects h := by simp [naming, h]

/-- The variable is in the scope. -/
def TypeScope.Has (scope : TypeScope) : Var → Prop
  | .type v => v ∈ scope.types.map (·.2)
  | .effect e => e ∈ scope.effects.map (·.2)

variable {name : String} {scope : TypeScope} {x : Var}

theorem TypeScope.has_of_type? {v : TypeVar} (h : scope.type? name = some v) :
    scope.Has (.type v) :=
  mem_map.mpr ⟨(name, v), Dict.mem_entries_of_get? (d := ⟨scope.types⟩) h, rfl⟩

theorem TypeScope.has_of_effect? {e : EffectVar} (h : scope.effect? name = some e) :
    scope.Has (.effect e) :=
  mem_map.mpr ⟨(name, e), Dict.mem_entries_of_get? (d := ⟨scope.effects⟩) h, rfl⟩

theorem TypeScope.has_insertType {v : TypeVar} :
    (scope.insertType name v).Has x ↔ scope.Has x ∨ x = .type v := by
  cases x <;> simp [Has, insertType]

theorem TypeScope.has_insertEffect {e : EffectVar} :
    (scope.insertEffect name e).Has x ↔ scope.Has x ∨ x = .effect e := by
  cases x <;> simp [Has, insertEffect]

theorem TypeScope.not_has_empty : ¬ empty.Has x := by
  cases x <;> exact not_mem_nil

/-- Different names of the scope have different variables. -/
structure TypeScope.Distinct (scope : TypeScope) : Prop where
  types : (scope.types.map (·.2)).Nodup
  effects : (scope.effects.map (·.2)).Nodup

namespace Resolve

/-! ## Names that get variables -/

/-- A name that an open scope does not have gets the next variable of the supply. -/
inductive Adds (r : Resolver) : Resolver → Prop
  | type {name : String} (hopen : r.scope.isOpen = true) (hnew : r.scope.type? name = none) :
    Adds r ⟨r.fresh.typeVar.2, r.scope.insertType name r.fresh.typeVar.1⟩
  | effect {name : String} (hopen : r.scope.isOpen = true) (hnew : r.scope.effect? name = none) :
    Adds r ⟨r.fresh.effectVar.2, r.scope.insertEffect name r.fresh.effectVar.1⟩

/-- Names get variables one after the other. -/
abbrev Leads : Resolver → Resolver → Prop :=
  Relation.ReflTransGen Adds

variable {r r' : Resolver} {reg : Registry} {span : Span} {name : String} {t : Ty}

theorem Adds.later (h : Adds r r') : r.fresh.Later r'.fresh := by
  cases h with
  | type => exact r.fresh.later_typeVar
  | effect => exact r.fresh.later_effectVar

theorem Adds.keeps (h : Adds r r') {x : Var} (hx : r.scope.Has x) : r'.scope.Has x := by
  cases h with
  | type => exact TypeScope.has_insertType.mpr (.inl hx)
  | effect => exact TypeScope.has_insertEffect.mpr (.inl hx)

/-- The variables of the scope are the old ones and one that is drawn. -/
theorem Adds.has (h : Adds r r') (hd : r.fresh.Distinct) {x : Var} (hx : r'.scope.Has x) :
    r.scope.Has x ∨ r.fresh.HandedOut r'.fresh x := by
  cases h with
  | type =>
    rcases TypeScope.has_insertType.mp hx with hx | rfl
    · exact .inl hx
    · exact .inr hd.handedOut_typeVar
  | effect =>
    rcases TypeScope.has_insertEffect.mp hx with hx | rfl
    · exact .inl hx
    · exact .inr hd.handedOut_effectVar

theorem Adds.distinct (h : Adds r r') (hdrawn : ∀ {x}, r.scope.Has x → ¬ r.fresh.Upcoming x)
    (hd : r.scope.Distinct) : r'.scope.Distinct := by
  cases h with
  | type =>
    refine ⟨?_, hd.effects⟩
    rw [TypeScope.insertType, map_append, map_singleton]
    exact hd.types.append (nodup_singleton _) (disjoint_singleton.mpr fun hmem =>
      hdrawn (x := .type _) hmem r.fresh.upcoming_typeVar)
  | effect =>
    refine ⟨hd.types, ?_⟩
    rw [TypeScope.insertEffect, map_append, map_singleton]
    exact hd.effects.append (nodup_singleton _) (disjoint_singleton.mpr fun hmem =>
      hdrawn (x := .effect _) hmem r.fresh.upcoming_effectVar)

namespace Leads

theorem later (h : Leads r r') : r.fresh.Later r'.fresh := by
  induction h with
  | refl => exact .refl _
  | tail _ hstep ih => exact ih.trans hstep.later

variable {x : Var}

theorem keeps (h : Leads r r') (hx : r.scope.Has x) : r'.scope.Has x := by
  induction h with
  | refl => exact hx
  | tail _ hstep ih => exact hstep.keeps ih

/-- Names that have a variable keep it. -/
theorem types (h : Leads r r') {name : String} {v : TypeVar} (hv : r.scope.type? name = some v) :
    r'.scope.type? name = some v := by
  induction h with
  | refl => exact hv
  | tail _ hstep ih =>
    cases hstep with
    | type => exact Dict.lookup_append_of_some ih _
    | effect => exact ih

theorem effects (h : Leads r r') {name : String} {e : EffectVar}
    (he : r.scope.effect? name = some e) : r'.scope.effect? name = some e := by
  induction h with
  | refl => exact he
  | tail _ hstep ih =>
    cases hstep with
    | type => exact ih
    | effect => exact Dict.lookup_append_of_some ih _

theorem follows (h : Leads r r') {ν : Naming} (hν : ν.Follows r'.scope) : ν.Follows r.scope :=
  ⟨fun hv => hν.types (h.types hv), fun he => hν.effects (h.effects he)⟩

/-- The variables of the scope are the old ones and drawn ones. -/
theorem has (h : Leads r r') (hd : r.fresh.Distinct) (hx : r'.scope.Has x) :
    r.scope.Has x ∨ r.fresh.HandedOut r'.fresh x := by
  induction h with
  | refl => exact .inl hx
  | tail hfirst hstep ih =>
    rcases hstep.has (later hfirst |>.distinct hd) hx with hx | hx
    · exact (ih hx).imp_right fun hx => hx.later hstep.later
    · exact .inr (hx.earlier (later hfirst))

/-- Where the variables of the scope have been drawn, those that are new to it have been drawn
too. -/
theorem drawn (h : Leads r r') (hd : r.fresh.Distinct)
    (hdrawn : ∀ {x}, r.scope.Has x → ¬ r.fresh.Upcoming x)
    (hx : r'.scope.Has x) : ¬ r'.fresh.Upcoming x :=
  (h.has hd hx).elim (fun hx hup => hdrawn hx (h.later.upcoming hup)) And.right

theorem distinct (h : Leads r r') (hd : r.fresh.Distinct)
    (hdrawn : ∀ {x}, r.scope.Has x → ¬ r.fresh.Upcoming x) (hscope : r.scope.Distinct) :
    r'.scope.Distinct := by
  induction h with
  | refl => exact hscope
  | tail hfirst hstep ih => exact hstep.distinct (drawn hfirst hd hdrawn) ih

/-- A closed scope gets no variables. -/
theorem scope_eq (h : Leads r r') (hclosed : r.scope.isOpen = false) : r'.scope = r.scope := by
  rcases h.cases_head with rfl | ⟨_, hstep, -⟩
  · rfl
  · cases hstep <;> simp_all

end Leads

theorem typeVar_ok {v : TypeVar} (h : typeVar span name r = .ok v r') :
    Leads r r' ∧ r'.scope.type? name = some v := by
  rw [typeVar_eq] at h
  split at h
  · cases h
    exact ⟨.refl, ‹_›⟩
  · split at h <;> cases h
    exact ⟨.single (.type ‹_› ‹_›), Dict.lookup_snoc_self ‹_› _⟩

theorem effectVar_ok {e : EffectVar} (h : effectVar span name r = .ok e r') :
    Leads r r' ∧ r'.scope.effect? name = some e := by
  rw [effectVar_eq] at h
  split at h
  · cases h
    exact ⟨.refl, ‹_›⟩
  · split at h <;> cases h
    exact ⟨.single (.effect ‹_› ‹_›), Dict.lookup_snoc_self ‹_› _⟩

theorem Stepwise.leads {α : Type} {x : ResolveM α} (hx : Stepwise x) {a : α} (h : x r = .ok a r') :
    Leads r r' := by
  induction hx generalizing r r' with
  | pure =>
    obtain ⟨-, rfl⟩ := pure_eq_ok.mp h
    exact .refl
  | throw => exact (throw_eq_ok.mp h).elim
  | bind _ _ ih ihf =>
    obtain ⟨a, r₁, hfirst, hrest⟩ := bind_eq_ok.mp h
    exact (ih hfirst).trans (ihf a hrest)
  | typeVar => exact (typeVar_ok h).1
  | effectVar => exact (effectVar_ok h).1

/-! ## What written types are resolved to -/

/-- The type has sorted rows, and its variables are in the scope. -/
structure Resolved (scope : TypeScope) (t : Ty) : Prop where
  sorted : t.RowsSorted
  inScope : t.Over scope.Has

theorem Leads.resolved (h : Leads r r') (ht : Resolved r.scope t) : Resolved r'.scope t :=
  ⟨ht.sorted, ht.inScope.mono fun _ hx => h.keeps hx⟩

theorem resolved_fn {scope : TypeScope} {ts : List Ty} {row : Row}
    (hts : ∀ t ∈ ts, Resolved scope t)
    (ht : Resolved scope t) (hsorted : row.IsSorted) (hover : row.Over scope.Has) :
    Resolved scope (.fn ts t row) where
  sorted row' hrow' := by
    rcases Ty.mem_rows_fn.mp hrow' with ⟨t', ht', hrow'⟩ | hrow' | rfl
    · exact (hts t' ht').sorted row' hrow'
    · exact ht.sorted row' hrow'
    · exact hsorted
  inScope := Ty.over_fn.mpr ⟨fun t ht => (hts t ht).inScope, ht.inScope, hover⟩

theorem applied_ok {args : List Ty} (hargs : ∀ t ∈ args, Resolved r.scope t)
    (h : applied reg span name args r = .ok t r') :
    Resolved r'.scope t ∧
      ∀ ν : Naming, ν.Follows r'.scope → TypeExpr.ofName? reg ν name args = some t := by
  simp only [applied] at h
  -- a name is a variable, a primitive type or a data type
  by_cases hvar : Text.isVariableName name
  · simp only [hvar, if_true, bind_eq_ok, pure_eq_ok] at h
    obtain ⟨v, r₁, hv, rfl, rfl⟩ := h
    obtain ⟨hleads, hscope⟩ := typeVar_ok hv
    refine ⟨⟨fun row hrow => ?_, fun x hx => ?_⟩, fun ν hν => ?_⟩
    · rcases Ty.mem_rows_applyTo.mp hrow with hrow | ⟨t, ht, hrow⟩
      · exact (not_mem_nil hrow).elim
      · exact (hargs t ht).sorted row hrow
    · rw [Ty.mem_occurrences_applyTo, Ty.mem_occurrencesAll] at hx
      rcases hx with hx | ⟨t, ht, hx⟩
      · rw [mem_singleton.mp hx]
        exact TypeScope.has_of_type? hscope
      · exact hleads.keeps ((hargs t ht).inScope x hx)
    · rw [TypeExpr.ofName?, if_pos hvar, hν.types hscope]
  · simp only [hvar, Bool.false_eq_true, if_false] at h
    rcases hprim : Prim.ofName? name with _ | p
    · rcases harity : reg.dataTypes.arity? name with _ | arity
      · simp only [hprim, harity, throw_eq_ok] at h
      · by_cases heq : arity = args.length
        · simp only [hprim, harity, heq, if_true, pure_eq_ok] at h
          obtain ⟨rfl, rfl⟩ := h
          refine ⟨⟨fun row hrow => ?_, fun x hx => ?_⟩, fun ν _ => ?_⟩
          · obtain ⟨t, ht, hrow⟩ := Ty.mem_rows_named.mp hrow
            exact (hargs t ht).sorted row hrow
          · obtain ⟨t, ht, hx⟩ := Ty.mem_occurrences_named.mp hx
            exact (hargs t ht).inScope x hx
          · simp [TypeExpr.ofName?, hvar, hprim, harity, heq]
        · simp only [hprim, harity, heq, if_false, throw_eq_ok] at h
    · by_cases hempty : args.isEmpty
      · simp only [hprim, hempty, if_true, pure_eq_ok] at h
        obtain ⟨rfl, rfl⟩ := h
        refine ⟨⟨fun row hrow => (not_mem_nil hrow).elim, Ty.over_prim p⟩, fun ν _ => ?_⟩
        simp [TypeExpr.ofName?, hvar, hprim, hempty]
      · simp only [hprim, hempty, Bool.false_eq_true, if_false, throw_eq_ok] at h

theorem effects_ok {effect : EffectExpr} {row : Row} (h : effects reg span effect r = .ok row r') :
    row.IsSorted ∧ row.Over r'.scope.Has ∧
      ∀ ν : Naming, ν.Follows r'.scope → effect.row? reg ν = some row := by
  cases effect with
  | pure =>
    obtain ⟨rfl, rfl⟩ := pure_eq_ok.mp h
    exact ⟨Row.isSorted_pure, Row.over_pure, fun ν _ => rfl⟩
  | var name =>
    simp only [effects, bind_eq_ok, pure_eq_ok] at h
    obtain ⟨e, r₁, he, rfl, rfl⟩ := h
    have hscope := (effectVar_ok he).2
    exact ⟨Row.isSorted_ofVar e, Row.over_ofVar.mpr (TypeScope.has_of_effect? hscope),
      fun ν hν => congrArg some (hν.effects hscope)⟩
  | row labels rest =>
    simp only [effects] at h
    -- resolving stops at the first label that is not declared
    rcases hfind : labels.find? (fun label => !reg.hasEffect label) with _ | label
    · have hall : labels.all reg.hasEffect = true := by simpa using hfind
      rcases rest with _ | name
      · simp only [hfind, pure_eq_ok] at h
        obtain ⟨rfl, rfl⟩ := h
        exact ⟨Row.isSorted_closed labels, Row.over_of_tail_none rfl,
          fun ν _ => by simp only [EffectExpr.row?, hall, if_true]⟩
      · simp only [hfind, bind_eq_ok, pure_eq_ok] at h
        obtain ⟨e, r₁, he, rfl, rfl⟩ := h
        have hscope := (effectVar_ok he).2
        refine ⟨Row.isSorted_extensible labels e, fun e' he' => ?_, fun ν hν => ?_⟩
        · obtain rfl := Option.some.inj he'
          exact TypeScope.has_of_effect? hscope
        · simp [EffectExpr.row?, hall, hν.effects hscope, Row.ofVar, Row.extensible]
    · simp only [hfind, throw_eq_ok] at h

mutual

/-- A written type means the type it is resolved to when names stand for the variables they got. -/
theorem type_ok (written : TypeExpr) {r r' : Resolver} {t : Ty}
    (h : type reg span written r = .ok t r') :
    Resolved r'.scope t ∧ ∀ ν : Naming, ν.Follows r'.scope → written.type? reg ν = some t := by
  cases written with
  | named name => exact applied_ok nofun h
  | applied name args =>
    simp only [type, bind_eq_ok] at h
    obtain ⟨ts, r₁, hts, h⟩ := h
    obtain ⟨hresolved₁, hmeans₁⟩ := types_ok args hts
    obtain ⟨hresolved, hmeans⟩ := applied_ok hresolved₁ h
    refine ⟨hresolved, fun ν hν => ?_⟩
    have hleads := (Stepwise.applied name ts).leads h
    simp only [TypeExpr.type?, hmeans₁ ν (hleads.follows hν), Option.bind_eq_bind,
      Option.bind_some, hmeans ν hν]
  | function params result effect =>
    simp only [type, bind_eq_ok, pure_eq_ok] at h
    obtain ⟨ts, r₁, hts, t₁, r₂, ht₁, row, r₃, hrow, rfl, rfl⟩ := h
    obtain ⟨hresolved₁, hmeans₁⟩ := types_ok params hts
    obtain ⟨hresolved₂, hmeans₂⟩ := type_ok result ht₁
    obtain ⟨hsorted, hover, hmeans₃⟩ := effects_ok hrow
    -- earlier parts stay resolved while the later ones are
    have hleads₃ := (Stepwise.effects effect).leads hrow
    have hleads₂ : Leads r₁ r₃ := ((Stepwise.type result).leads ht₁).trans hleads₃
    refine ⟨resolved_fn (fun t ht => hleads₂.resolved (hresolved₁ t ht))
      (hleads₃.resolved hresolved₂) hsorted hover, fun ν hν => ?_⟩
    simp only [TypeExpr.type?, hmeans₁ ν (hleads₂.follows hν), hmeans₂ ν (hleads₃.follows hν),
      hmeans₃ ν hν, Option.bind_eq_bind, Option.bind_some, Option.pure_def]
  | tuple elems =>
    simp only [type, bind_eq_ok, pure_eq_ok] at h
    obtain ⟨ts, r₁, hts, rfl, rfl⟩ := h
    obtain ⟨hresolved, hmeans⟩ := types_ok elems hts
    refine ⟨⟨fun row hrow => ?_, ?_⟩, fun ν hν => ?_⟩
    · obtain ⟨t, ht, hrow⟩ := Ty.mem_rows_tuple.mp hrow
      exact (hresolved t ht).sorted row hrow
    · exact Ty.over_tuple.mpr fun t ht => (hresolved t ht).inScope
    · simp only [TypeExpr.type?, hmeans ν hν, Option.bind_eq_bind, Option.bind_some,
        Option.pure_def]

theorem types_ok (written : List TypeExpr) {r r' : Resolver} {ts : List Ty}
    (h : types reg span written r = .ok ts r') :
    (∀ t ∈ ts, Resolved r'.scope t) ∧
      ∀ ν : Naming, ν.Follows r'.scope → TypeExpr.types? reg ν written = some ts := by
  cases written with
  | nil =>
    obtain ⟨rfl, rfl⟩ := pure_eq_ok.mp h
    exact ⟨nofun, fun ν _ => rfl⟩
  | cons w ws =>
    simp only [types, bind_eq_ok, pure_eq_ok] at h
    obtain ⟨t, r₁, ht, ts, r₂, hts, rfl, rfl⟩ := h
    obtain ⟨hresolved₁, hmeans₁⟩ := type_ok w ht
    obtain ⟨hresolved, hmeans⟩ := types_ok ws hts
    have hleads := (Stepwise.types ws).leads hts
    refine ⟨forall_mem_cons.mpr ⟨hleads.resolved hresolved₁, hresolved⟩, fun ν hν => ?_⟩
    simp only [TypeExpr.types?, hmeans₁ ν (hleads.follows hν), hmeans ν hν, Option.bind_eq_bind,
      Option.bind_some, Option.pure_def]

end

end Resolve

namespace Infer

variable {st st' : InferState} {reg : Registry}

/-- A resolved type has only drawn variables, and the written type describes whatever it comes to
stand for. -/
theorem resolve_ok {written : Spanned TypeExpr} {t : Ty} (hd : st.fresh.Distinct)
    (h : resolve reg written st = .ok t st') :
    Draws st st' ∧ t.Usable st'.fresh ∧ (∀ P, st.Inside P → t.Over P) ∧
      ∀ U : Valuation, written.node.Describes reg (t.under U) := by
  simp only [resolve, bind_eq_ok, get_eq_ok] at h
  obtain ⟨_, _, ⟨rfl, rfl⟩, h⟩ := h
  rcases hrun : Resolve.type reg written.span written.node ⟨st.fresh, .empty⟩ with ⟨t', r⟩ | ⟨e, r⟩
  · simp only [EStateM.run, hrun, recordNames, bind_eq_ok, set_eq_ok, modify_eq_ok, pure_eq_ok]
      at h
    obtain ⟨_, _, rfl, _, _, rfl, rfl, rfl⟩ := h
    -- the scope starts empty, so every variable in it has been drawn on the way
    have hleads := (Resolve.Stepwise.type written.node).leads hrun
    have hdrawn (x : Var) (hx : r.scope.Has x) : st.fresh.HandedOut r.fresh x :=
      (hleads.has hd hx).resolve_left TypeScope.not_has_empty
    obtain ⟨hresolved, hmeans⟩ := Resolve.type_ok written.node hrun
    exact ⟨⟨⟨rfl, rfl, hleads.later⟩, rfl⟩,
      ⟨hresolved.sorted, hresolved.inScope.mono fun x hx => (hdrawn x hx).2⟩,
      fun P hP => hresolved.inScope.mono fun x hx => hP.upcoming (hdrawn x hx).1,
      fun U => TypeExpr.Describes.under ⟨_, hmeans _ r.scope.naming_follows⟩ U⟩
  · simp only [EStateM.run, hrun, bind_eq_ok, throw_eq_ok, and_false, exists_false] at h

end Infer

end RowTyping
