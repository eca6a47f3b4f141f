import Mathlib.Data.List.Forall2
import RowTyping.Infer.Generalize
import RowTyping.Proofs.Unify.Step

/-!
# Matching variables

Two inferences that draw their variables from different supplies do the same, up to the names of the
variables. A `Matching` says which variable of the first one plays the part of which variable of the
second one. Types that are built alike from matching variables (`Matching.Types`) cannot be told
apart: they are equal or not together (`Matching.Types.eq_iff`), list their variables in the same
order (`Matching.Types.occurrences`), are taken apart in the same way (`Matching.Types.decompose?`),
and replacing matching variables by matching types gives matching types (`Matching.Types.under`).
-/

namespace RowTyping

open List

/-! ## Lists and options related member by member -/

section Lists

variable {α β : Type} {R S : α → β → Prop}

theorem forall₂_imp_of_mem {as : List α} {bs : List β} (h : Forall₂ R as bs)
    (himp : ∀ a ∈ as, ∀ {b}, R a b → S a b) : Forall₂ S as bs := by
  induction h with
  | nil => exact .nil
  | cons hab _ ih =>
    exact .cons (himp _ (.head _) hab) (ih fun a ha => himp a (.tail _ ha))

theorem isEmpty_eq_of_forall₂ {as : List α} {bs : List β} (h : Forall₂ R as bs) :
    as.isEmpty = bs.isEmpty := by
  cases h <;> rfl

theorem forall₂_zip {γ δ : Type} {T : γ → δ → Prop} {as : List α} {bs : List β} {cs : List γ}
    {ds : List δ} (h : Forall₂ R as bs) (h' : Forall₂ T cs ds) :
    Forall₂ (fun x y => R x.1 y.1 ∧ T x.2 y.2) (as.zip cs) (bs.zip ds) := by
  induction h generalizing cs ds with
  | nil => exact .nil
  | cons hab _ ih =>
    cases h' with
    | nil => exact .nil
    | cons hcd h' => exact .cons ⟨hab, hcd⟩ (ih h')

section Images

variable {γ : Type} {as : List α} {bs : List β} (h : Forall₂ R as bs)

include h

theorem map_eq_of_forall₂ {f : α → γ} {g : β → γ} (hfg : ∀ a ∈ as, ∀ ⦃b⦄, R a b → f a = g b) :
    as.map f = bs.map g := by
  induction h with
  | nil => rfl
  | cons hab _ ih =>
    rw [map_cons, map_cons, hfg _ (.head _) hab,
      ih fun a ha => hfg a (.tail _ ha)]

theorem flatMap_eq_of_forall₂ {f : α → List γ} {g : β → List γ}
    (hfg : ∀ a ∈ as, ∀ ⦃b⦄, R a b → f a = g b) : as.flatMap f = bs.flatMap g := by
  rw [flatMap_def, flatMap_def, map_eq_of_forall₂ h hfg]

theorem filterMap_eq_of_forall₂ {f : α → Option γ} {g : β → Option γ}
    (hfg : ∀ ⦃a b⦄, R a b → f a = g b) : as.filterMap f = bs.filterMap g := by
  induction h with
  | nil => rfl
  | cons hab _ ih => rw [filterMap_cons, filterMap_cons, hfg hab, ih]

end Images

theorem biUnique_eq : Relator.BiUnique (Eq : α → α → Prop) :=
  ⟨fun _ _ _ h h' => h.trans h'.symm, fun _ _ _ h h' => h.symm.trans h'⟩

variable [DecidableEq α] [DecidableEq β]

theorem forall₂_distinct (hR : Relator.BiUnique R) {as : List α} {bs : List β}
    (h : Forall₂ R as bs) : Forall₂ R (distinct as) (distinct bs) := by
  induction h with
  | nil => exact .nil
  | cons hab _ ih =>
    refine .cons hab (rel_filter (fun a' b' hab' => ?_) ih)
    simpa using not_congr (Relator.rel_eq hR hab' hab)

theorem count_eq_of_forall₂ (hR : Relator.BiUnique R) {as : List α} {bs : List β} {a : α} {b : β}
    (h : Forall₂ R as bs) (hab : R a b) : as.count a = bs.count b := by
  induction h with
  | nil => rfl
  | cons hab' _ ih =>
    have heq := Relator.rel_eq hR hab' hab
    rw [count_cons, count_cons, ih]
    simp [heq]

theorem idxOf_eq_of_forall₂ (hR : Relator.BiUnique R) {as : List α} {bs : List β} {a : α} {b : β}
    (h : Forall₂ R as bs) (hab : R a b) : as.idxOf a = bs.idxOf b := by
  induction h with
  | nil => rfl
  | @cons a' b' _ _ hab' _ ih =>
    have heq : (a' == a) = (b' == b) := by
      rw [Bool.eq_iff_iff, beq_iff_eq, beq_iff_eq]
      exact Relator.rel_eq hR hab' hab
    rw [idxOf_cons, idxOf_cons, heq, ih]

end Lists

section Options

variable {α β : Type} {R : α → β → Prop} {a : Option α} {b : Option β}

theorem isSome_eq_of_rel (h : Option.Rel R a b) : a.isSome = b.isSome := by
  cases h <;> rfl

theorem exists_of_rel_some {a : α} (h : Option.Rel R (some a) b) : ∃ c, b = some c ∧ R a c := by
  cases h with
  | some h => exact ⟨_, rfl, h⟩

theorem eq_none_of_rel (h : Option.Rel R none b) : b = none := by
  cases h
  rfl

end Options

/-! ## Matching variables, rows and types -/

/-- Which variable plays the part of which: a partial one-to-one correspondence. -/
structure Matching where
  /-- The type variables that match. -/
  types : TypeVar → TypeVar → Prop
  /-- The effect variables that match. -/
  effects : EffectVar → EffectVar → Prop
  /-- A type variable matches at most one, on either side. -/
  biUnique_types : Relator.BiUnique types
  /-- An effect variable matches at most one, on either side. -/
  biUnique_effects : Relator.BiUnique effects

namespace Matching

variable (ρ : Matching)

/-- Variables of one kind that match. -/
inductive Vars : Var → Var → Prop
  | type {v v' : TypeVar} (h : ρ.types v v') : Vars (.type v) (.type v')
  | effect {e e' : EffectVar} (h : ρ.effects e e') : Vars (.effect e) (.effect e')

/-- Rows with the same labels and matching tails. -/
inductive Rows : Row → Row → Prop
  | closed (labels : List String) : Rows ⟨labels, none⟩ ⟨labels, none⟩
  | extended (labels : List String) {e e' : EffectVar} (h : ρ.effects e e') :
      Rows ⟨labels, some e⟩ ⟨labels, some e'⟩

/-- Types that differ only in matching variables. -/
inductive Types : Ty → Ty → Prop
  | prim (p : Prim) : Types (.prim p) (.prim p)
  | var {v v' : TypeVar} (h : ρ.types v v') : Types (.var v) (.var v')
  | named (name : String) {args args' : List Ty} (h : Forall₂ Types args args') :
      Types (.named name args) (.named name args')
  | app {head head' : Ty} {args args' : List Ty} (hhead : Types head head')
      (hargs : Forall₂ Types args args') : Types (.app head args) (.app head' args')
  | fn {params params' : List Ty} {result result' : Ty} {effects effects' : Row}
      (hparams : Forall₂ Types params params') (hresult : Types result result')
      (heffects : ρ.Rows effects effects') :
      Types (.fn params result effects) (.fn params' result' effects')
  | tuple {elems elems' : List Ty} (h : Forall₂ Types elems elems') :
      Types (.tuple elems) (.tuple elems')

/-- Equations between matching sides. -/
inductive Equations : Equation → Equation → Prop
  | types {a a' b b' : Ty} (ha : ρ.Types a a') (hb : ρ.Types b b') :
      Equations (.types a b) (.types a' b')
  | rows {a a' b b' : Row} (ha : ρ.Rows a a') (hb : ρ.Rows b b') :
      Equations (.rows a b) (.rows a' b')

variable {ρ} {t t' : Ty}

@[simp]
theorem vars_type {v v' : TypeVar} : ρ.Vars (.type v) (.type v') ↔ ρ.types v v' :=
  ⟨fun h => by cases h; assumption, .type⟩

@[simp]
theorem vars_effect {e e' : EffectVar} : ρ.Vars (.effect e) (.effect e') ↔ ρ.effects e e' :=
  ⟨fun h => by cases h; assumption, .effect⟩

theorem Vars.eq_iff {x x' y y' : Var} (hx : ρ.Vars x x') (hy : ρ.Vars y y') : x = y ↔ x' = y' := by
  cases hx with
  | type hv =>
    cases hy with
    | type hw => simpa using Relator.rel_eq ρ.biUnique_types hv hw
    | effect => simp
  | effect he =>
    cases hy with
    | type => simp
    | effect hf => simpa using Relator.rel_eq ρ.biUnique_effects he hf

theorem biUnique_vars (ρ : Matching) : Relator.BiUnique ρ.Vars :=
  ⟨fun _ _ _ hx hy => (hx.eq_iff hy).mpr rfl, fun _ _ _ hx hy => (hx.eq_iff hy).mp rfl⟩

/-! ### Equality -/

theorem Rows.eq_iff {a a' b b' : Row} (ha : ρ.Rows a a') (hb : ρ.Rows b b') : a = b ↔ a' = b' := by
  cases ha with
  | closed => cases hb <;> simp
  | extended _ he =>
    cases hb with
    | closed => simp
    | extended _ hf => simp [Relator.rel_eq ρ.biUnique_effects he hf]

mutual

/-- Matching types are equal together. -/
theorem Types.eq_iff {t t' u u' : Ty} : ρ.Types t t' → ρ.Types u u' → (t = u ↔ t' = u')
  | .prim _, hu => by cases hu <;> simp
  | .var hv, hu => by
    cases hu with
    | var hw => simp [Relator.rel_eq ρ.biUnique_types hv hw]
    | _ => simp
  | .named _ hargs, hu => by
    cases hu with
    | named _ hargs' => simp [types_eq_iff hargs hargs']
    | _ => simp
  | .app hhead hargs, hu => by
    cases hu with
    | app hhead' hargs' => simp [hhead.eq_iff hhead', types_eq_iff hargs hargs']
    | _ => simp
  | .fn hparams hresult heffects, hu => by
    cases hu with
    | fn hparams' hresult' heffects' =>
      simp [types_eq_iff hparams hparams', hresult.eq_iff hresult', heffects.eq_iff heffects']
    | _ => simp
  | .tuple helems, hu => by
    cases hu with
    | tuple helems' => simp [types_eq_iff helems helems']
    | _ => simp

theorem types_eq_iff {ts ts' us us' : List Ty} :
    Forall₂ ρ.Types ts ts' → Forall₂ ρ.Types us us' → (ts = us ↔ ts' = us')
  | .nil, hus => by cases hus <;> simp
  | .cons ht hts, hus => by
    cases hus with
    | nil => simp
    | cons hu hus => rw [List.cons.injEq, List.cons.injEq, ht.eq_iff hu, types_eq_iff hts hus]

end

/-! ### Variables -/

theorem Rows.tail {r r' : Row} (h : ρ.Rows r r') : Option.Rel ρ.effects r.tail r'.tail := by
  cases h with
  | closed => exact .none
  | extended _ he => exact .some he

theorem Rows.labels_eq {r r' : Row} (h : ρ.Rows r r') : r.labels = r'.labels := by
  cases h <;> rfl

mutual

/-- Matching types list matching variables in the same order. -/
theorem Types.occurrences {t t' : Ty} : ρ.Types t t' → Forall₂ ρ.Vars t.occurrences t'.occurrences
  | .prim _ => .nil
  | .var hv => .cons (.type hv) .nil
  | .named _ hargs => types_occurrences hargs
  | .app hhead hargs => rel_append hhead.occurrences (types_occurrences hargs)
  | .fn hparams hresult heffects => by
    refine rel_append (rel_append (types_occurrences hparams) hresult.occurrences) ?_
    cases heffects with
    | closed => exact .nil
    | extended _ he => exact .cons (.effect he) .nil
  | .tuple helems => types_occurrences helems

theorem types_occurrences {ts ts' : List Ty} : Forall₂ ρ.Types ts ts' →
    Forall₂ ρ.Vars (Ty.occurrencesAll ts) (Ty.occurrencesAll ts')
  | .nil => .nil
  | .cons ht hts => rel_append ht.occurrences (types_occurrences hts)

end

theorem Types.mem_occurrences_iff (h : ρ.Types t t') {x x' : Var} (hx : ρ.Vars x x') :
    x ∈ t.occurrences ↔ x' ∈ t'.occurrences :=
  rel_mem ρ.biUnique_vars hx h.occurrences

mutual

/-- Types that match in their own variables match wherever these do. -/
theorem Types.mono {ρ' : Matching} {t t' : Ty} :
    ρ.Types t t' → (∀ x ∈ t.occurrences, ∀ {x'}, ρ.Vars x x' → ρ'.Vars x x') → ρ'.Types t t'
  | .prim p, _ => .prim p
  | .var hv, himp => .var (vars_type.mp (himp _ (.head _) (.type hv)))
  | .named name hargs, himp => .named name (types_mono hargs himp)
  | .app hhead hargs, himp =>
    .app (hhead.mono fun x hx => himp x (mem_append_left _ hx))
      (types_mono hargs fun x hx => himp x (mem_append_right _ hx))
  | .fn hparams hresult heffects, himp => by
    simp only [Ty.occurrences, forall_mem_append] at himp
    refine .fn (types_mono hparams himp.1.1) (hresult.mono himp.1.2) ?_
    cases heffects with
    | closed labels => exact .closed labels
    | extended labels he =>
      exact .extended labels (vars_effect.mp (himp.2 _ (.head _) (.effect he)))
  | .tuple helems, himp => .tuple (types_mono helems himp)

theorem types_mono {ρ' : Matching} {ts ts' : List Ty} : Forall₂ ρ.Types ts ts' →
    (∀ x ∈ Ty.occurrencesAll ts, ∀ {x'}, ρ.Vars x x' → ρ'.Vars x x') → Forall₂ ρ'.Types ts ts'
  | .nil, _ => .nil
  | .cons ht hts, himp =>
    .cons (ht.mono fun x hx => himp x (mem_append_left _ hx))
      (types_mono hts fun x hx => himp x (mem_append_right _ hx))

end

mutual

/-- A type matches itself if all its variables do. -/
theorem types_refl : {t : Ty} → (∀ x ∈ t.occurrences, ρ.Vars x x) → ρ.Types t t
  | .prim p, _ => .prim p
  | .var _, h => .var (vars_type.mp (h _ (.head _)))
  | .named name _, h => .named name (forall₂_types_refl h)
  | .app _ _, h =>
    .app (types_refl fun x hx => h x (mem_append_left _ hx))
      (forall₂_types_refl fun x hx => h x (mem_append_right _ hx))
  | .fn _ _ ⟨labels, tail⟩, h => by
    simp only [Ty.occurrences, forall_mem_append] at h
    refine .fn (forall₂_types_refl h.1.1) (types_refl h.1.2) ?_
    cases tail with
    | none => exact .closed labels
    | some e => exact .extended labels (vars_effect.mp (h.2 _ (.head _)))
  | .tuple _, h => .tuple (forall₂_types_refl h)

theorem forall₂_types_refl : {ts : List Ty} → (∀ x ∈ Ty.occurrencesAll ts, ρ.Vars x x) →
    Forall₂ ρ.Types ts ts
  | [], _ => .nil
  | _ :: _, h =>
    .cons (types_refl fun x hx => h x (mem_append_left _ hx))
      (forall₂_types_refl fun x hx => h x (mem_append_right _ hx))

end

/-! ### Replacing variables -/

theorem Types.applyTo (h : ρ.Types t t') {args args' : List Ty}
    (hargs : Forall₂ ρ.Types args args') :
    ρ.Types (t.applyTo args) (t'.applyTo args') := by
  cases hargs with
  | nil => exact h
  | cons ha has =>
    have hargs := Forall₂.cons ha has
    cases h with
    | named name hbefore => exact .named name (rel_append hbefore hargs)
    | app hhead hbefore => exact .app hhead (rel_append hbefore hargs)
    | prim p => exact .app (.prim p) hargs
    | var hv => exact .app (.var hv) hargs
    | fn hparams hresult heffects => exact .app (.fn hparams hresult heffects) hargs
    | tuple helems => exact .app (.tuple helems) hargs

/-- What a tail is replaced by on both sides: nothing, if the tails go on to match, or matching
rows. -/
inductive Tails (ρ : Matching) (e e' : EffectVar) : Option Row → Option Row → Prop
  | kept (h : ρ.effects e e') : Tails ρ e e' none none
  | replaced {r r' : Row} (h : ρ.Rows r r') : Tails ρ e e' (some r) (some r')

/-- Variables that match by `ρ` are replaced by what matches by `ρ'`. -/
structure Valuations (ρ ρ' : Matching) (V V' : Valuation) : Prop where
  types : ∀ {v v'}, ρ.types v v' → ρ'.Types (V.types v) (V'.types v')
  effects : ∀ {e e'}, ρ.effects e e' → ρ'.Tails e e' (V.effects e) (V'.effects e')

section Under

variable {ρ' : Matching} {V V' : Valuation}

theorem Rows.under (hV : ρ.Valuations ρ' V V') {r r' : Row} (h : ρ.Rows r r') :
    ρ'.Rows (r.under V) (r'.under V') := by
  cases h with
  | closed labels => exact .closed labels
  | @extended labels e e' he =>
    have htails := hV.effects he
    generalize hrest : V.effects e = rest at htails
    generalize hrest' : V'.effects e' = rest' at htails
    cases htails with
    | kept he => simpa [Row.under, Row.subst, hrest, hrest'] using Rows.extended labels he
    | replaced h =>
      cases h with
      | closed more => simpa [Row.under, Row.subst, hrest, hrest'] using Rows.closed _
      | extended more he => simpa [Row.under, Row.subst, hrest, hrest'] using Rows.extended _ he

mutual

/-- Replacing matching variables by matching types gives matching types. -/
theorem Types.under (hV : ρ.Valuations ρ' V V') {t t' : Ty} :
    ρ.Types t t' → ρ'.Types (t.under V) (t'.under V')
  | .prim p => .prim p
  | .var hv => hV.types hv
  | .named name hargs => .named name (types_under hV hargs)
  | .app hhead hargs => (hhead.under hV).applyTo (types_under hV hargs)
  | .fn hparams hresult heffects =>
    .fn (types_under hV hparams) (hresult.under hV) (heffects.under hV)
  | .tuple helems => .tuple (types_under hV helems)

theorem types_under (hV : ρ.Valuations ρ' V V') {ts ts' : List Ty} : Forall₂ ρ.Types ts ts' →
    Forall₂ ρ'.Types (Ty.substAll V.types V.effects ts) (Ty.substAll V'.types V'.effects ts')
  | .nil => .nil
  | .cons ht hts => .cons (ht.under hV) (types_under hV hts)

end

theorem Equations.under (hV : ρ.Valuations ρ' V V') {eq eq' : Equation} (h : ρ.Equations eq eq') :
    ρ'.Equations (eq.under V) (eq'.under V') := by
  cases h with
  | types ha hb => exact .types (ha.under hV) (hb.under hV)
  | rows ha hb => exact .rows (ha.under hV) (hb.under hV)

end Under

/-! ### Taking types apart -/

theorem equations_zip {as as' bs bs' : List Ty} (has : Forall₂ ρ.Types as as')
    (hbs : Forall₂ ρ.Types bs bs') :
    Forall₂ ρ.Equations (Equation.zip as bs) (Equation.zip as' bs') := by
  induction has generalizing bs bs' with
  | nil => exact .nil
  | cons ha _ ih =>
    cases hbs with
    | nil => exact .nil
    | cons hb hbs => exact .cons (.types ha hb) (ih hbs)

/-- Matching types are taken apart in the same way, if at all. -/
theorem Types.decompose? {a a' b b' : Ty} (ha : ρ.Types a a') (hb : ρ.Types b b') :
    Option.Rel (fun d d' => d.1 = d'.1 ∧ Forall₂ ρ.Equations d.2 d'.2)
      (Equation.decompose? a b) (Equation.decompose? a' b') := by
  cases ha with
  | prim | var => cases hb <;> exact .none
  | named n has =>
    cases hb with
    | named m hbs =>
      simp only [Equation.decompose?, has.length_eq, hbs.length_eq]
      split
      · exact .some ⟨rfl, equations_zip has hbs⟩
      · exact .none
    | app hg hbs =>
      simp only [Equation.decompose?, has.length_eq, hbs.length_eq]
      split
      · exact .some ⟨rfl, .cons (.types (.named n (forall₂_take _ has)) hg)
          (equations_zip (forall₂_drop _ has) hbs)⟩
      · exact .none
    | _ => exact .none
  | app hf has =>
    cases hb with
    | named m hbs =>
      simp only [Equation.decompose?, has.length_eq, hbs.length_eq]
      split
      · exact .some ⟨rfl, .cons (.types hf (.named m (forall₂_take _ hbs)))
          (equations_zip has (forall₂_drop _ hbs))⟩
      · exact .none
    | app hg hbs =>
      -- the longer list of arguments gives some of them to its head
      simp only [Equation.decompose?, has.length_eq, hbs.length_eq]
      split
      · exact .some ⟨rfl, .cons (.types hf (hg.applyTo (forall₂_take _ hbs)))
          (equations_zip has (forall₂_drop _ hbs))⟩
      · exact .some ⟨rfl, .cons (.types (hf.applyTo (forall₂_take _ has)) hg)
          (equations_zip (forall₂_drop _ has) hbs)⟩
    | _ => exact .none
  | fn hps hr he =>
    cases hb with
    | fn hqs hs hf =>
      simp only [Equation.decompose?, hps.length_eq, hqs.length_eq]
      split
      · exact .some ⟨rfl, rel_append (equations_zip hps hqs)
          (.cons (.types hr hs) (.cons (.rows he hf) .nil))⟩
      · exact .none
    | _ => exact .none
  | tuple has =>
    cases hb with
    | tuple hbs =>
      simp only [Equation.decompose?, has.length_eq, hbs.length_eq]
      split
      · exact .some ⟨rfl, equations_zip has hbs⟩
      · exact .none
    | _ => exact .none

/-- Matching types have the same side as the one that is bound. -/
theorem Types.binding? {a a' b b' : Ty} (ha : ρ.Types a a') (hb : ρ.Types b b') :
    Option.Rel (fun entry entry' => ρ.types entry.1 entry'.1 ∧ ρ.Types entry.2 entry'.2)
      (Unify.binding? a b) (Unify.binding? a' b') := by
  cases ha with
  | var hv => exact .some ⟨hv, hb⟩
  | _ =>
    cases hb with
    | var hv => exact .some ⟨hv, by constructor <;> assumption⟩
    | _ => exact .none

end Matching

end RowTyping
