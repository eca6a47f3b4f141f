import RowTyping.Check.Declare
import RowTyping.Proofs.Infer.Resolve

/-!
# Kinds of written types

A type is well kinded if every data type in it is declared and has exactly its declared number of
arguments, and if only variables are applied to further arguments (`Ty.WellKinded`). The meaning of
a written type is well kinded if what each variable stands for takes the arguments that the variable
is applied to (`TypeExpr.wellKinded_type?`). This covers two readings of one written type: the one
of its declaration, in which variables stand for variables, and the one in which the parameter of a
trait stands for the type constructor of an implementation.

`TypeScope.Reads` says that a type is what a written type means in a scope. Resolving gives such
types (`Resolve.reads_type`), and `TypeScope.Reads.type?_fix` puts a type constructor for one of the
variables.
-/

namespace RowTyping

open List

/-! ## Kinds -/

/-- Data types have as many arguments as `arity?` says, and all other applications are of
variables. -/
inductive Ty.WellKinded (arity? : String → Option Nat) : Ty → Prop
  | prim (p : Prim) : WellKinded arity? (.prim p)
  | var (v : TypeVar) : WellKinded arity? (.var v)
  | named {name : String} {args : List Ty} (harity : arity? name = some args.length)
      (hargs : ∀ t ∈ args, WellKinded arity? t) : WellKinded arity? (.named name args)
  | app {v : TypeVar} {args : List Ty} (hargs : ∀ t ∈ args, WellKinded arity? t) :
      WellKinded arity? (.app (.var v) args)
  | fn {params : List Ty} {result : Ty} {effects : Row}
      (hparams : ∀ t ∈ params, WellKinded arity? t) (hresult : WellKinded arity? result) :
      WellKinded arity? (.fn params result effects)
  | tuple {elems : List Ty} (helems : ∀ t ∈ elems, WellKinded arity? t) :
      WellKinded arity? (.tuple elems)

/-- The type may be applied to the given number of arguments: a variable to any, a primitive type to
none and a data type to as many as it declares. -/
def Ty.Takes (arity? : String → Option Nat) (k : Nat) : Ty → Prop
  | .var _ => True
  | .prim _ => k = 0
  | .named name args => args = [] ∧ arity? name = some k
  | .app _ _ | .fn _ _ _ | .tuple _ => False

variable {arity? : String → Option Nat} {reg reg' : Registry} {ν : Naming} {head : Ty}

theorem Ty.Takes.applyTo {args : List Ty} (h : head.Takes arity? args.length)
    (hargs : ∀ t ∈ args, t.WellKinded arity?) : (head.applyTo args).WellKinded arity? := by
  cases head with
  | var v =>
    rcases args with _ | ⟨t, ts⟩
    · exact .var v
    · exact .app hargs
  | prim p =>
    obtain rfl := length_eq_zero_iff.mp h
    exact .prim p
  | named name before =>
    obtain ⟨rfl, harity⟩ := h
    rcases args with _ | ⟨t, ts⟩
    · exact .named harity hargs
    · exact .named harity hargs
  | app | fn | tuple => exact h.elim

/-- A primitive type or a data type without its arguments. -/
def Ty.IsConstructor : Ty → Prop
  | .prim _ => True
  | .named _ args => args = []
  | .var _ | .app _ _ | .fn _ _ _ | .tuple _ => False

theorem Ty.IsConstructor.eq (h : head.IsConstructor) :
    (∃ p, head = .prim p) ∨ ∃ name, head = .named name [] := by
  cases head with
  | prim p => exact .inl ⟨p, rfl⟩
  | named name args => exact .inr ⟨name, congrArg _ h⟩
  | var | app | fn | tuple => exact h.elim

theorem Ty.IsConstructor.occurrences (h : head.IsConstructor) : head.occurrences = [] := by
  obtain ⟨p, rfl⟩ | ⟨name, rfl⟩ := h.eq <;> rfl

theorem Ty.IsConstructor.rowsSorted (h : head.IsConstructor) : head.RowsSorted := by
  obtain ⟨p, rfl⟩ | ⟨name, rfl⟩ := h.eq <;> exact forall_mem_nil _

theorem Ty.IsConstructor.under (h : head.IsConstructor) (V : Valuation) : head.under V = head := by
  obtain ⟨p, rfl⟩ | ⟨name, rfl⟩ := h.eq <;> rfl

/-- An implementation is given for a type constructor, which takes the arguments that are
missing. -/
theorem DataTypes.takes_of_implHead? {types : DataTypes} {name : String} {n : Nat}
    (h : types.implHead? name = some (head, n)) :
    head.IsConstructor ∧ head.Takes types.arity? n := by
  rw [implHead?] at h
  split at h
  · cases h
    exact ⟨trivial, rfl⟩
  · obtain ⟨k, hk, heq⟩ := Option.map_eq_some_iff.mp h
    cases heq
    exact ⟨rfl, rfl, hk⟩

namespace TypeExpr

theorem wellKinded_ofName? {name : String} {args : List Ty} {t : Ty}
    (hν : Text.isVariableName name → (ν.types name).Takes reg.dataTypes.arity? args.length)
    (hargs : ∀ t ∈ args, t.WellKinded reg.dataTypes.arity?) (h : ofName? reg ν name args = some t) :
    t.WellKinded reg.dataTypes.arity? := by
  rw [ofName?] at h
  split at h
  · rename_i hname
    obtain rfl := Option.some.inj h
    exact (hν hname).applyTo hargs
  · split at h
    · split at h
      · obtain rfl := Option.some.inj h
        exact .prim _
      · cases h
    · split at h
      · rename_i harity
        obtain rfl := Option.some.inj h
        exact .named harity hargs
      · cases h

theorem length_types? {ws : List TypeExpr} {ts : List Ty} (h : types? reg ν ws = some ts) :
    ts.length = ws.length := by
  induction ws generalizing ts with
  | nil =>
    obtain rfl := Option.some.inj h
    rfl
  | cons w ws ih =>
    simp only [types?, Option.bind_eq_bind, Option.bind_eq_some_iff, Option.pure_def,
      Option.some.injEq] at h
    obtain ⟨t, -, ts, hts, rfl⟩ := h
    rw [length_cons, length_cons, ih hts]

/-- Each variable of the written types stands for something that takes the arguments it is applied
to. -/
def ArgumentsFit (arity? : String → Option Nat) (ν : Naming) (uses : String → List Nat) : Prop :=
  ∀ name, Text.isVariableName name → ∀ k ∈ uses name, (ν.types name).Takes arity? k

theorem ArgumentsFit.mono {uses uses' : String → List Nat} (h : ArgumentsFit arity? ν uses)
    (hsub : ∀ name, uses' name ⊆ uses name) : ArgumentsFit arity? ν uses' :=
  fun name hname k hk => h name hname k (hsub name hk)

mutual

/-- What a written type means is well kinded if what its variables stand for takes their
arguments. -/
theorem wellKinded_type? (w : TypeExpr) {t : Ty}
    (hν : ArgumentsFit reg.dataTypes.arity? ν fun name => w.aritiesOf name)
    (h : w.type? reg ν = some t) : t.WellKinded reg.dataTypes.arity? := by
  cases w with
  | named name =>
    refine wellKinded_ofName? (fun hname => hν name hname _ ?_) (forall_mem_nil _) h
    simp [aritiesOf]
  | applied name args =>
    simp only [type?, Option.bind_eq_bind, Option.bind_eq_some_iff] at h
    obtain ⟨ts, hts, h⟩ := h
    refine wellKinded_ofName? (fun hname => hν name hname _ ?_) (wellKinded_types? args ?_ hts) h
    · simp [aritiesOf, length_types? hts]
    · exact hν.mono fun _ => subset_append_right _ _
  | function params result effect =>
    simp only [type?, Option.bind_eq_bind, Option.bind_eq_some_iff, Option.pure_def,
      Option.some.injEq] at h
    obtain ⟨ts, hts, t, ht, r, -, rfl⟩ := h
    exact .fn (wellKinded_types? params (hν.mono fun _ => subset_append_left _ _) hts)
      (wellKinded_type? result (hν.mono fun _ => subset_append_right _ _) ht)
  | tuple elems =>
    simp only [type?, Option.bind_eq_bind, Option.bind_eq_some_iff, Option.pure_def,
      Option.some.injEq] at h
    obtain ⟨ts, hts, rfl⟩ := h
    exact .tuple (wellKinded_types? elems hν hts)

theorem wellKinded_types? (ws : List TypeExpr) {ts : List Ty}
    (hν : ArgumentsFit reg.dataTypes.arity? ν fun name => aritiesOfAll name ws)
    (h : types? reg ν ws = some ts) : ∀ t ∈ ts, t.WellKinded reg.dataTypes.arity? := by
  cases ws with
  | nil =>
    obtain rfl := Option.some.inj h
    exact nofun
  | cons w ws =>
    simp only [types?, Option.bind_eq_bind, Option.bind_eq_some_iff, Option.pure_def,
      Option.some.injEq] at h
    obtain ⟨t, ht, ts, hts, rfl⟩ := h
    exact forall_mem_cons.mpr
      ⟨wellKinded_type? w (hν.mono fun _ => subset_append_left _ _) ht,
        wellKinded_types? ws (hν.mono fun _ => subset_append_right _ _) hts⟩

end

end TypeExpr

/-! ## Larger registries -/

/-- The second registry has the data types of the first one, with as many arguments, and all its
effects. -/
structure Registry.Widens (reg reg' : Registry) : Prop where
  arity : ∀ {name n}, reg.dataTypes.arity? name = some n → reg'.dataTypes.arity? name = some n
  effects : ∀ {label}, reg.hasEffect label = true → reg'.hasEffect label = true

theorem EffectExpr.row?_widens (hreg : reg.Widens reg') {effect : EffectExpr} {r : Row}
    (h : effect.row? reg ν = some r) : effect.row? reg' ν = some r := by
  cases effect with
  | pure | var => exact h
  | row labels rest =>
    simp only [row?] at h ⊢
    split at h
    · rename_i hall
      rw [if_pos, h]
      exact all_eq_true.mpr fun label hlabel => hreg.effects (all_eq_true.mp hall label hlabel)
    · cases h

namespace TypeExpr

theorem ofName?_widens (hreg : reg.Widens reg') {name : String} {args : List Ty} {t : Ty}
    (h : ofName? reg ν name args = some t) : ofName? reg' ν name args = some t := by
  simp only [ofName?] at h ⊢
  split at h
  · rwa [if_pos ‹_›]
  · rw [if_neg ‹_›]
    split at h
    · exact h
    · split at h
      · rename_i harity
        rwa [if_pos (hreg.arity harity)]
      · cases h

mutual

/-- A written type means the same in a larger registry. -/
theorem type?_widens (hreg : reg.Widens reg') (w : TypeExpr) {t : Ty}
    (h : w.type? reg ν = some t) : w.type? reg' ν = some t := by
  cases w with
  | named name => exact ofName?_widens hreg h
  | applied name args =>
    simp only [type?, Option.bind_eq_bind, Option.bind_eq_some_iff] at h ⊢
    obtain ⟨ts, hts, h⟩ := h
    exact ⟨ts, types?_widens hreg args hts, ofName?_widens hreg h⟩
  | function params result effect =>
    simp only [type?, Option.bind_eq_bind, Option.bind_eq_some_iff] at h ⊢
    obtain ⟨ts, hts, t, ht, r, hr, h⟩ := h
    exact ⟨ts, types?_widens hreg params hts, t, type?_widens hreg result ht, r,
      effect.row?_widens hreg hr, h⟩
  | tuple elems =>
    simp only [type?, Option.bind_eq_bind, Option.bind_eq_some_iff] at h ⊢
    obtain ⟨ts, hts, h⟩ := h
    exact ⟨ts, types?_widens hreg elems hts, h⟩

theorem types?_widens (hreg : reg.Widens reg') (ws : List TypeExpr) {ts : List Ty}
    (h : types? reg ν ws = some ts) : types? reg' ν ws = some ts := by
  cases ws with
  | nil => exact h
  | cons w ws =>
    simp only [types?, Option.bind_eq_bind, Option.bind_eq_some_iff] at h ⊢
    obtain ⟨t, ht, ts, hts, h⟩ := h
    exact ⟨t, type?_widens hreg w ht, ts, types?_widens hreg ws hts, h⟩

end

end TypeExpr

/-! ## Types read in a scope -/

/-- The type is what the written type means when its names stand for the variables of the scope,
which has all of them. -/
structure TypeScope.Reads (reg : Registry) (scope : TypeScope) (w : TypeExpr) (t : Ty) : Prop
    extends Resolve.Resolved scope t where
  means : ∀ {ν : Naming}, ν.Follows scope → w.type? reg ν = some t

variable {scope : TypeScope} {w : TypeExpr} {t : Ty}

theorem TypeScope.Reads.widens (h : scope.Reads reg w t) (hreg : reg.Widens reg') :
    scope.Reads reg' w t :=
  ⟨h.toResolved, fun hν => TypeExpr.type?_widens hreg w (h.means hν)⟩

/-- In a scope of different variables different names have different variables. -/
theorem TypeScope.Distinct.type?_inj (h : scope.Distinct) {n n' : String} {v : TypeVar}
    (hn : scope.type? n = some v) (hn' : scope.type? n' = some v) : n = n' := by
  have hmem := Dict.mem_entries_of_get? (d := ⟨scope.types⟩) hn
  have hmem' := Dict.mem_entries_of_get? (d := ⟨scope.types⟩) hn'
  exact congrArg Prod.fst (inj_on_of_nodup_map h.types hmem hmem' rfl)

theorem TypeScope.Distinct.effect?_inj (h : scope.Distinct) {n n' : String} {e : EffectVar}
    (hn : scope.effect? n = some e) (hn' : scope.effect? n' = some e) : n = n' := by
  have hmem := Dict.mem_entries_of_get? (d := ⟨scope.effects⟩) hn
  have hmem' := Dict.mem_entries_of_get? (d := ⟨scope.effects⟩) hn'
  exact congrArg Prod.fst (inj_on_of_nodup_map h.effects hmem hmem' rfl)

/-- Names that the scope does not have stand for the given type. -/
def TypeScope.namingOr (scope : TypeScope) (other : Ty) : Naming where
  types name := ((scope.type? name).map Ty.var).getD other
  effects name := ((scope.effect? name).map Row.ofVar).getD .pure

theorem TypeScope.types_namingOr (scope : TypeScope) (other : Ty) (name : String) :
    (scope.namingOr other).types name = ((scope.type? name).map Ty.var).getD other := rfl

theorem TypeScope.effects_namingOr (scope : TypeScope) (other : Ty) (name : String) :
    (scope.namingOr other).effects name = ((scope.effect? name).map Row.ofVar).getD .pure := rfl

theorem TypeScope.namingOr_follows (scope : TypeScope) (other : Ty) :
    (scope.namingOr other).Follows scope where
  types h := by simp [namingOr, h]
  effects h := by simp [namingOr, h]

/-- What is read in a scope is well kinded. -/
theorem TypeScope.Reads.wellKinded (h : scope.Reads reg w t) :
    t.WellKinded reg.dataTypes.arity? := by
  refine TypeExpr.wellKinded_type? w (fun name _ k _ => ?_)
    (h.means (scope.namingOr_follows (.var ⟨0⟩)))
  rw [types_namingOr]
  rcases scope.type? name with _ | v <;> trivial

/-! ### One variable fixed -/

/-- The binding of a variable to a type without variables leads nowhere. -/
theorem Subst.acyclic_fixed {v : TypeVar} (hhead : head.occurrences = []) :
    (Subst.empty.bindType v head).Acyclic := by
  refine Subst.acyclic_empty.of_sinks fun _ _ h => ?_
  rcases Subst.leadsTo_bindType h with ⟨-, h⟩ | h
  · rw [hhead] at h
    cases h
  · exact (Subst.not_leadsTo_empty h).elim

/-- The naming in which one name of a type variable stands for the given type. -/
def Naming.fix (ν : Naming) (name : String) (t : Ty) : Naming :=
  { ν with types := Function.update ν.types name t }

section Fix

variable {v : TypeVar} {head : Ty} (hhead : head.IsConstructor) {name : String}

include hhead

theorem types_fixed : (Subst.empty.bindType v head).valuation.types v = head := by
  have hget : (Subst.empty.bindType v head).types.get? v = some head := by
    simp [Subst.bindType]
  rw [(Subst.acyclic_fixed hhead.occurrences).types_of_bound hget, hhead.under]

omit hhead in
theorem types_fixed_of_ne {u : TypeVar} (hu : u ≠ v) :
    (Subst.empty.bindType v head).valuation.types u = .var u := by
  refine Subst.types_of_unbound ?_
  change (Dict.empty.insert v head).get? u = none
  rw [Dict.get?_insert, if_neg hu, Dict.get?_empty]

/-- Where a variable is fixed only that variable is gone. -/
theorem mem_occurrences_fixed {x : Var}
    (hx : x ∈ ((Subst.empty.bindType v head).apply t).occurrences) :
    x ∈ t.occurrences ∧ x ≠ .type v := by
  obtain ⟨y, hy, hxy⟩ := Subst.mem_occurrences_apply.mp hx
  rcases y with u | e
  · by_cases hu : u = v
    · rw [hu, Valuation.image, types_fixed hhead, hhead.occurrences] at hxy
      cases hxy
    · rw [Valuation.image, types_fixed_of_ne hu] at hxy
      obtain rfl := mem_singleton.mp hxy
      exact ⟨hy, fun heq => hu (by cases heq; rfl)⟩
  · obtain rfl := mem_singleton.mp hxy
    exact ⟨hy, fun heq => by cases heq⟩

/-- The names of a scope under a substitution that fixes one of its variables. -/
theorem TypeScope.Distinct.namingOr_under (hd : scope.Distinct) (hname : scope.type? name = some v)
    {other : Ty} (hother : other.under (Subst.empty.bindType v head).valuation = other) :
    (scope.namingOr other).under (Subst.empty.bindType v head).valuation =
      (scope.namingOr other).fix name head := by
  have htypes (n : String) :
    ((scope.namingOr other).types n).under (Subst.empty.bindType v head).valuation =
      Function.update (scope.namingOr other).types name head n := by
    by_cases hn : n = name
    · rw [hn, Function.update_self, (scope.namingOr_follows other).types hname, Ty.under_var,
        types_fixed hhead]
    · rw [Function.update_of_ne hn, types_namingOr]
      rcases hu : scope.type? n with _ | u
      · exact hother
      · refine types_fixed_of_ne fun heq => hn (hd.type?_inj ?_ hname)
        rw [hu, heq]
  have heffects (n : String) :
      ((scope.namingOr other).effects n).under (Subst.empty.bindType v head).valuation =
        (scope.namingOr other).effects n := by
    rw [effects_namingOr]
    rcases scope.effect? n with _ | e <;> rfl
  rw [Naming.under, Naming.fix, funext htypes, funext heffects]

/-- Putting a type for a variable of a scope is reading the written type with the variable's name as
that type. -/
theorem TypeScope.Reads.type?_fix (h : scope.Reads reg w t) (hd : scope.Distinct)
    (hname : scope.type? name = some v)
    (other : Ty) (hother : other.under (Subst.empty.bindType v head).valuation = other) :
    w.type? reg ((scope.namingOr other).fix name head) =
      some ((Subst.empty.bindType v head).apply t) := by
  rw [← hd.namingOr_under hhead hname hother, Subst.apply_eq_under]
  exact TypeExpr.type?_under _ w (h.means (scope.namingOr_follows other))

/-- The type stays well kinded if the type for the variable takes the arguments of the variable. -/
theorem TypeScope.Reads.wellKinded_fix (h : scope.Reads reg w t) (hd : scope.Distinct)
    (hname : scope.type? name = some v)
    (hfit : ∀ k ∈ w.aritiesOf name, head.Takes reg.dataTypes.arity? k) :
    ((Subst.empty.bindType v head).apply t).WellKinded reg.dataTypes.arity? := by
  -- names that the scope does not have may stand for any variable but the fixed one
  let other : TypeVar := ⟨v.id + 1⟩
  have hother : (Ty.var other).under (Subst.empty.bindType v head).valuation = .var other :=
    types_fixed_of_ne fun heq => by
      have hid := congrArg TypeVar.id heq
      simp [other] at hid
  refine TypeExpr.wellKinded_type? w (fun n _ k hk => ?_) (h.type?_fix hhead hd hname _ hother)
  change (Function.update (scope.namingOr (.var other)).types name head n).Takes _ k
  by_cases hn : n = name
  · rw [hn] at hk ⊢
    rw [Function.update_self]
    exact hfit k hk
  · rw [Function.update_of_ne hn, types_namingOr]
    rcases scope.type? n with _ | u <;> trivial

end Fix

/-! ## Resolved types -/

namespace Resolve

variable {r r' : Resolver} {span : Span}

/-- A resolved type is what the written type means in the scope that resolving leaves. -/
theorem reads_type (h : type reg span w r = .ok t r') : r'.scope.Reads reg w t := by
  obtain ⟨hresolved, hmeans⟩ := type_ok w h
  exact ⟨hresolved, fun hν => hmeans _ hν⟩

theorem reads_types {ws : List TypeExpr} {ts : List Ty} (h : types reg span ws r = .ok ts r') :
    Forall₂ (r'.scope.Reads reg) ws ts := by
  induction ws generalizing r ts with
  | nil =>
    obtain ⟨rfl, -⟩ := pure_eq_ok.mp h
    exact .nil
  | cons w ws ih =>
    simp only [types, bind_eq_ok, pure_eq_ok] at h
    obtain ⟨t, r₁, ht, ts, r₂, hts, rfl, rfl⟩ := h
    have hleads := (Stepwise.types ws).leads hts
    have hfirst := reads_type ht
    exact .cons ⟨hleads.resolved hfirst.toResolved, fun hν => hfirst.means (hleads.follows hν)⟩
      (ih hts)

end Resolve

end RowTyping
