import Mathlib.Data.List.Forall2
import RowTyping.Coverage
import RowTyping.Infer.Expr
import RowTyping.Proofs.Substitution

/-!
# Values and what patterns match

The meaning of patterns: which values a type has (`Value.HasType`), which patterns may be used for
it (`Pattern.Suits`) and which values a pattern matches (`Pattern.Matches`). Values of data types
are finite trees of constructors. Values of types that patterns cannot look into are all alike.

The search for missing patterns resolves the fields of a constructor by following bindings to the
end, while the fields have their types by replacing the parameters once. The two differ when an
argument mentions a parameter, but never in what a pattern can look at (`Ty.Outlines`).
-/

namespace RowTyping

open List

/-! ## Types of fields -/

namespace DataType

/-- Every parameter stands for its argument and every other variable for itself. -/
def arguments (d : DataType) (args : List Ty) : Valuation where
  types v := ((Dict.ofList (d.paramVars.zip args)).get? v).getD (.var v)
  effects _ := none

/-- The types of a constructor's fields when the data type has these arguments, all parameters
replaced at once. -/
def fieldTypes (d : DataType) (args : List Ty) (c : Constructor) : List Ty :=
  c.fields.map (·.under (d.arguments args))

end DataType

/-- Constructors with one name are the same constructor of the same data type. -/
def DataTypes.UniqueNames (types : DataTypes) : Prop :=
  ∀ {n n' d d' c c'}, types.get? n = some d → c ∈ d.constructors → types.get? n' = some d' →
    c' ∈ d'.constructors → c.name = c'.name → n = n' ∧ c = c'

/-- Patterns cannot look into values of the type: only catch-alls match them. -/
def Ty.IsAbstract (types : DataTypes) : Ty → Prop
  | .var _ | .app _ _ | .fn _ _ _ => True
  | .named name _ => types.get? name = none
  | .prim _ | .tuple _ => False

/-! ## Values -/

/-- A finite value. -/
inductive Value where
  /-- The value of a literal. -/
  | lit (value : Literal)
  /-- A constructor of a data type with the values of its fields. -/
  | case (name : String) (fields : List Value)
  /-- A tuple. -/
  | tuple (elems : List Value)
  /-- A value that patterns cannot look into. -/
  | other
deriving Repr, Inhabited

/-- A value has a type. -/
inductive Value.HasType (types : DataTypes) : Value → Ty → Prop
  | lit {value : Literal} : HasType types (.lit value) value.type
  | case {name : String} {d : DataType} {c : Constructor} {args : List Ty} {fields : List Value} :
      types.get? name = some d → c ∈ d.constructors →
      Forall₂ (HasType types) fields (d.fieldTypes args c) →
      HasType types (.case c.name fields) (.named name args)
  | tuple {elems : List Value} {ts : List Ty} :
      Forall₂ (HasType types) elems ts → HasType types (.tuple elems) (.tuple ts)
  | other {t : Ty} : t.IsAbstract types → HasType types .other t

/-- Every data type has a value, whatever its arguments are. -/
def DataTypes.Inhabited (types : DataTypes) : Prop :=
  ∀ {name d}, types.get? name = some d → ∀ args, ∃ v : Value, v.HasType types (.named name args)

namespace Pattern

/-- A pattern may be used for the values of a type. -/
inductive Suits (types : DataTypes) : Pattern → Ty → Prop
  | wildcard {span : Span} {t : Ty} : Suits types (.wildcard span) t
  | var {span : Span} {name : String} {t : Ty} : Suits types (.var span name) t
  | lit {span : Span} {value : Literal} : Suits types (.lit span value) value.type
  | constructor {span : Span} {name : String} {d : DataType} {c : Constructor} {args : List Ty}
      {ps : List Pattern} :
      types.get? name = some d → c ∈ d.constructors →
      Forall₂ (Suits types) ps (d.fieldTypes args c) →
      Suits types (.constructor span c.name ps) (.named name args)
  | tuple {span : Span} {ps : List Pattern} {ts : List Ty} :
      Forall₂ (Suits types) ps ts → Suits types (.tuple span ps) (.tuple ts)

/-- A pattern matches a value. -/
inductive Matches : Pattern → Value → Prop
  | wildcard {span : Span} {v : Value} : Matches (.wildcard span) v
  | var {span : Span} {name : String} {v : Value} : Matches (.var span name) v
  | lit {span : Span} {value : Literal} : Matches (.lit span value) (.lit value)
  | constructor {span : Span} {name : String} {ps : List Pattern} {fields : List Value} :
      Forall₂ Matches ps fields → Matches (.constructor span name ps) (.case name fields)
  | tuple {span : Span} {ps : List Pattern} {elems : List Value} :
      Forall₂ Matches ps elems → Matches (.tuple span ps) (.tuple elems)

/-- How a pattern without variables and without numbers and strings is written. -/
inductive WrittenAs : Pattern → String → Prop
  | wildcard {span : Span} : WrittenAs (.wildcard span) "_"
  | head {p : Pattern} {name : String} {texts : List String} :
      p.headName? = some name → Forall₂ WrittenAs p.subpatterns texts →
      WrittenAs p (Coverage.Witness.caseText name texts)

/-- A literal is part of a pattern. -/
inductive Mentions (value : Literal) : Pattern → Prop
  | lit {span : Span} : Mentions value (.lit span value)
  | sub {p q : Pattern} : q ∈ p.subpatterns → Mentions value q → Mentions value p

theorem matches_of_isCatchAll {p : Pattern} (h : p.isCatchAll = true) (v : Value) :
    p.Matches v := by
  cases p with
  | wildcard => exact .wildcard
  | var => exact .var
  | lit | constructor | tuple => cases h

/-- A literal is part of a pattern if it is the pattern or part of a subpattern. -/
theorem mentions_iff {value : Literal} {p : Pattern} :
    p.Mentions value ↔ (∃ span, p = .lit span value) ∨ ∃ q ∈ p.subpatterns, q.Mentions value := by
  constructor
  · rintro (_ | ⟨hq, hmentions⟩)
    · exact .inl ⟨_, rfl⟩
    · exact .inr ⟨_, hq, hmentions⟩
  · rintro (⟨span, rfl⟩ | ⟨q, hq, hmentions⟩)
    · exact .lit
    · exact .sub hq hmentions

section Mentions

variable {value : Literal} {span : Span}

@[simp]
theorem not_mentions_wildcard : ¬ (Pattern.wildcard span).Mentions value := by
  rw [mentions_iff]
  simp [subpatterns]

@[simp]
theorem not_mentions_var {name : String} : ¬ (Pattern.var span name).Mentions value := by
  rw [mentions_iff]
  simp [subpatterns]

@[simp]
theorem mentions_lit {value' : Literal} :
    (Pattern.lit span value').Mentions value ↔ value' = value := by
  rw [mentions_iff]
  simp [subpatterns]

@[simp]
theorem mentions_constructor {name : String} {ps : List Pattern} :
    (Pattern.constructor span name ps).Mentions value ↔ ∃ q ∈ ps, q.Mentions value := by
  rw [mentions_iff]
  simp [subpatterns]

@[simp]
theorem mentions_tuple {ps : List Pattern} :
    (Pattern.tuple span ps).Mentions value ↔ ∃ q ∈ ps, q.Mentions value := by
  rw [mentions_iff]
  simp [subpatterns]

end Mentions

end Pattern

/-- Integers, floats and strings have more values than there are literals in the patterns. -/
def LiteralsLeft (ps : List Pattern) : Prop :=
  ∀ prim ∈ [Prim.int, .float, .string], ∃ value : Literal, value.type = .prim prim ∧
    ∀ p ∈ ps, ¬ p.Mentions value

/-- Fewer literals leave as many values. -/
theorem LiteralsLeft.mono {ps qs : List Pattern} (h : LiteralsLeft ps)
    (hsub : ∀ q ∈ qs, ∀ value, q.Mentions value → ∃ p ∈ ps, p.Mentions value) :
    LiteralsLeft qs := by
  intro prim hprim
  obtain ⟨value, htype, hnot⟩ := h prim hprim
  refine ⟨value, htype, fun q hq hmentions => ?_⟩
  obtain ⟨p, hp, hmentions⟩ := hsub q hq value hmentions
  exact hnot p hp hmentions

/-! ## Heads -/

/-- The constructor a value is built by, as patterns see it, with the values of its fields. -/
def Value.head? : Value → Option (String × List Value)
  | .lit (.bool true) => some ("True", [])
  | .lit (.bool false) => some ("False", [])
  | .lit .unit => some ("()", [])
  | .lit (.int _) | .lit (.float _) | .lit (.string _) | .other => none
  | .case name fields => some (name, fields)
  | .tuple elems => some ("(,)", elems)

namespace Coverage

/-- The constructors of a type with the types of their fields. -/
def variants (types : DataTypes) : Ty → List Case
  | .prim .bool => [⟨"True", []⟩, ⟨"False", []⟩]
  | .prim .unit => [⟨"()", []⟩]
  | .tuple elems => [⟨"(,)", elems⟩]
  | .named name args =>
    match types.get? name with
    | some d => d.constructors.map fun c => ⟨c.name, d.fieldTypes args c⟩
    | none => []
  | .prim .int | .prim .float | .prim .string | .var _ | .app _ _ | .fn _ _ _ => []

variable {types : DataTypes} {t : Ty}

theorem mem_variants_named {name : String} {d : DataType} {args : List Ty} {c : Case}
    (hd : types.get? name = some d) :
    c ∈ variants types (.named name args) ↔
      ∃ con ∈ d.constructors, c = ⟨con.name, d.fieldTypes args con⟩ := by
  simp [variants, hd, eq_comm]

/-- A type has at most one constructor with a name. -/
theorem eq_of_mem_variants (hnames : types.UniqueNames) {c c' : Case} (hc : c ∈ variants types t)
    (hc' : c' ∈ variants types t) (hname : c.name = c'.name) : c = c' := by
  cases t with
  | named name args =>
    rcases hd : types.get? name with _ | d
    · simp [variants, hd] at hc
    · obtain ⟨con, hcon, rfl⟩ := (mem_variants_named hd).mp hc
      obtain ⟨con', hcon', rfl⟩ := (mem_variants_named hd).mp hc'
      obtain ⟨-, rfl⟩ := hnames hd hcon hd hcon' hname
      rfl
  | prim p => cases p <;> grind [variants]
  | tuple elems => simp_all [variants]
  | var | app | fn => cases hc

end Coverage

namespace Value

open Coverage

variable {types : DataTypes} {t : Ty}

theorem HasType.eq_literal_type {value : Literal} (h : (Value.lit value).HasType types t) :
    t = value.type := by
  cases h
  rfl

theorem HasType.exists_named {name : String} {fields : List Value}
    (h : (Value.case name fields).HasType types t) : ∃ typeName args, t = .named typeName args := by
  cases h
  exact ⟨_, _, rfl⟩

theorem HasType.exists_tuple {elems : List Value} (h : (Value.tuple elems).HasType types t) :
    ∃ ts, t = .tuple ts := by
  cases h
  exact ⟨_, rfl⟩

/-- A value of a type with constructors is built by one of them. -/
theorem HasType.exists_variant {v : Value} (hv : v.HasType types t) (ht : variants types t ≠ []) :
    ∃ c ∈ variants types t, ∃ fields, v.head? = some (c.name, fields) ∧
      Forall₂ (HasType types) fields c.fields := by
  cases hv with
  | @lit value =>
    cases value with
    | bool b => cases b <;> simp [Literal.type, variants, head?]
    | unit => simp [Literal.type, variants, head?]
    | int | float | string => exact (ht rfl).elim
  | case hd hc hfields => exact ⟨_, (mem_variants_named hd).mpr ⟨_, hc, rfl⟩, _, rfl, hfields⟩
  | tuple helems => exact ⟨_, mem_singleton.mpr rfl, _, rfl, helems⟩
  | other habstract =>
    cases t with
    | named name args => simp_all [variants, Ty.IsAbstract]
    | var | app | fn => exact (ht rfl).elim
    | prim | tuple => exact habstract.elim

/-- A constructor of a type builds a value of the type from values of its fields. -/
theorem exists_of_mem_variants {c : Case} (hc : c ∈ variants types t) {fields : List Value}
    (hfields : Forall₂ (HasType types) fields c.fields) :
    ∃ v : Value, v.HasType types t ∧ v.head? = some (c.name, fields) := by
  cases t with
  | named name args =>
    rcases hd : types.get? name with _ | d
    · simp [variants, hd] at hc
    · obtain ⟨con, hcon, rfl⟩ := (mem_variants_named hd).mp hc
      exact ⟨_, .case hd hcon hfields, rfl⟩
  | prim p =>
    cases p with
    | bool =>
      rcases mem_pair.mp hc with rfl | rfl
      · obtain rfl := forall₂_nil_right_iff.mp hfields
        exact ⟨_, @HasType.lit types (.bool true), rfl⟩
      · obtain rfl := forall₂_nil_right_iff.mp hfields
        exact ⟨_, @HasType.lit types (.bool false), rfl⟩
    | unit =>
      obtain rfl := mem_singleton.mp hc
      obtain rfl := forall₂_nil_right_iff.mp hfields
      exact ⟨_, @HasType.lit types .unit, rfl⟩
    | int | float | string => cases hc
  | tuple elems =>
    obtain rfl := mem_singleton.mp hc
    exact ⟨_, .tuple hfields, rfl⟩
  | var | app | fn => cases hc

/-- If every data type has a value, then every type has one. -/
theorem exists_hasType (hinhabited : types.Inhabited) (t : Ty) :
    ∃ v : Value, v.HasType types t := by
  induction t with
  | prim p =>
    cases p with
    | int => exact ⟨_, @HasType.lit types (.int 0)⟩
    | float => exact ⟨_, @HasType.lit types (.float 0)⟩
    | bool => exact ⟨_, @HasType.lit types (.bool true)⟩
    | string => exact ⟨_, @HasType.lit types (.string "")⟩
    | unit => exact ⟨_, @HasType.lit types .unit⟩
  | var => exact ⟨.other, .other trivial⟩
  | app => exact ⟨.other, .other trivial⟩
  | fn => exact ⟨.other, .other trivial⟩
  | named name args =>
    rcases hd : types.get? name with _ | d
    · exact ⟨.other, .other hd⟩
    · exact hinhabited hd args
  | tuple elems ih =>
    choose! f hf using ih
    refine ⟨.tuple (elems.map f), .tuple ?_⟩
    rw [forall₂_map_left_iff, forall₂_same]
    exact hf

end Value

namespace Pattern

open Coverage

variable {types : DataTypes} {t : Ty} {p : Pattern}

/-- A pattern with a head starts with a constructor of its type. -/
theorem Suits.exists_variant (hp : p.Suits types t) {name : String}
    (hhead : p.headName? = some name) :
    ∃ c ∈ variants types t, c.name = name ∧
      Forall₂ (Suits types) p.subpatterns c.fields := by
  cases hp with
  | wildcard | var => cases hhead
  | @lit span value =>
    cases value with
    | bool b => cases b <;> simp_all [Literal.type, variants, headName?, subpatterns]
    | unit => simp_all [Literal.type, variants, headName?, subpatterns]
    | int | float | string => cases hhead
  | constructor hd hc hargs =>
    exact ⟨_, (mem_variants_named hd).mpr ⟨_, hc, rfl⟩, Option.some.inj hhead, hargs⟩
  | tuple helems => exact ⟨_, mem_singleton.mpr rfl, Option.some.inj hhead, helems⟩

/-- A constructor of a type makes a pattern for the type from patterns for its fields. -/
theorem exists_of_mem_variants {c : Case} (hc : c ∈ variants types t) {ps : List Pattern}
    (hps : Forall₂ (Suits types) ps c.fields) :
    ∃ p : Pattern, p.Suits types t ∧ p.headName? = some c.name ∧ p.subpatterns = ps := by
  cases t with
  | named name args =>
    rcases hd : types.get? name with _ | d
    · simp [variants, hd] at hc
    · obtain ⟨con, hcon, rfl⟩ := (mem_variants_named hd).mp hc
      exact ⟨.constructor .synthetic con.name ps, .constructor hd hcon hps, rfl, rfl⟩
  | prim p =>
    cases p with
    | bool =>
      rcases mem_pair.mp hc with rfl | rfl
      · obtain rfl := forall₂_nil_right_iff.mp hps
        exact ⟨.lit .synthetic (.bool true), .lit, rfl, rfl⟩
      · obtain rfl := forall₂_nil_right_iff.mp hps
        exact ⟨.lit .synthetic (.bool false), .lit, rfl, rfl⟩
    | unit =>
      obtain rfl := mem_singleton.mp hc
      obtain rfl := forall₂_nil_right_iff.mp hps
      exact ⟨.lit .synthetic .unit, .lit, rfl, rfl⟩
    | int | float | string => cases hc
  | tuple elems =>
    obtain rfl := mem_singleton.mp hc
    exact ⟨.tuple .synthetic ps, .tuple hps, rfl, rfl⟩
  | var | app | fn => cases hc

/-- Only catch-alls and patterns with its head match a value. -/
theorem Matches.head {v : Value} (h : p.Matches v) {name : String} {fields : List Value}
    (hv : v.head? = some (name, fields)) : p.isCatchAll = true ∨ p.headName? = some name := by
  cases h with
  | wildcard | var => exact .inl rfl
  | @lit span value =>
    refine .inr ?_
    cases value with
    | bool b => cases b <;> simp_all [Value.head?, headName?]
    | unit => simp_all [Value.head?, headName?]
    | int | float | string => cases hv
  | constructor | tuple =>
    obtain ⟨rfl, -⟩ := Prod.mk.inj (Option.some.inj hv)
    exact .inr rfl

/-- A pattern matches a value of its type with the same head if its subpatterns match the fields. -/
theorem matches_iff_of_head (hp : p.Suits types t) {v : Value} (hv : v.HasType types t)
    {name : String} {fields : List Value} (hhead : p.headName? = some name)
    (hvalue : v.head? = some (name, fields)) :
    p.Matches v ↔ Forall₂ Matches p.subpatterns fields := by
  -- the type tells truth values, the unit value, tuples and constructors of data types apart
  cases hp with
  | wildcard | var => cases hhead
  | @lit span value =>
    suffices v = .lit value ∧ fields = [] by
      obtain ⟨rfl, rfl⟩ := this
      exact iff_of_true .lit .nil
    cases v with
    | lit value' =>
      have htype := hv.eq_literal_type
      cases value with
      | bool b =>
        cases value' with
        | bool b' => cases b <;> cases b' <;> grind [headName?, Value.head?]
        | int | float | string | unit => cases htype
      | unit =>
        cases value' with
        | unit => grind [Value.head?]
        | int | float | string | bool => cases htype
      | int | float | string => cases hhead
    | case =>
      obtain ⟨_, _, htype⟩ := hv.exists_named
      cases value <;> cases htype
    | tuple =>
      obtain ⟨_, htype⟩ := hv.exists_tuple
      cases value <;> cases htype
    | other => cases hvalue
  | @constructor span typeName d c args ps hd hc hargs =>
    obtain rfl : c.name = name := Option.some.inj hhead
    cases v with
    | case name' fields' =>
      obtain ⟨rfl, rfl⟩ := Prod.mk.inj (Option.some.inj hvalue)
      exact ⟨fun h => by cases h; assumption, .constructor⟩
    | lit value =>
      have htype := hv.eq_literal_type
      cases value <;> cases htype
    | tuple =>
      obtain ⟨_, htype⟩ := hv.exists_tuple
      cases htype
    | other => cases hvalue
  | @tuple span ps ts helems =>
    cases v with
    | tuple elems =>
      obtain ⟨-, rfl⟩ := Prod.mk.inj (Option.some.inj hvalue)
      exact ⟨fun h => by cases h; assumption, .tuple⟩
    | lit value =>
      have htype := hv.eq_literal_type
      cases value <;> cases htype
    | case =>
      obtain ⟨_, _, htype⟩ := hv.exists_named
      cases htype
    | other => cases hvalue

end Pattern

/-! ## What patterns can look at -/

namespace Ty

/-- The types are built alike as far as patterns for the first type can look. -/
inductive Outlines : Ty → Ty → Prop
  | prim {p : Prim} : Outlines (.prim p) (.prim p)
  | named {name : String} {args args' : List Ty} :
      Forall₂ Outlines args args' → Outlines (.named name args) (.named name args')
  | tuple {elems elems' : List Ty} :
      Forall₂ Outlines elems elems' → Outlines (.tuple elems) (.tuple elems')
  | var {v : TypeVar} {t : Ty} : Outlines (.var v) t
  | app {head : Ty} {args : List Ty} {t : Ty} : Outlines (.app head args) t
  | fn {params : List Ty} {result : Ty} {effects : Row} {t : Ty} :
      Outlines (.fn params result effects) t

theorem forall₂_of_forall_mem {R : Ty → Ty → Prop} {ts : List Ty} {f g : Ty → Ty}
    (h : ∀ t ∈ ts, R (f t) (g t)) : Forall₂ R (ts.map f) (ts.map g) := by
  rw [forall₂_map_left_iff, forall₂_map_right_iff, forall₂_same]
  exact h

@[refl]
theorem Outlines.refl (t : Ty) : t.Outlines t := by
  induction t with
  | prim => exact .prim
  | named name args ih => exact .named (forall₂_same.mpr ih)
  | tuple elems ih => exact .tuple (forall₂_same.mpr ih)
  | var => exact .var
  | app => exact .app
  | fn => exact .fn

private theorem forall₂_outlines_map {ts us : List Ty} {f : Ty → Ty}
    (ih : ∀ t ∈ ts, ∀ {u}, t.Outlines u → t.Outlines (f u)) (h : Forall₂ Outlines ts us) :
    Forall₂ Outlines ts (us.map f) := by
  rw [forall₂_map_right_iff]
  exact ((forall₂_and_left _ _).mpr ⟨ih, h⟩).imp fun _ _ hu => hu.1 hu.2

/-- Replacing variables keeps what patterns for an outline can look at. -/
theorem Outlines.under {t u : Ty} (h : t.Outlines u) (V : Valuation) : t.Outlines (u.under V) := by
  induction t generalizing u with
  | prim =>
    cases h
    exact .prim
  | named name args ih =>
    cases h with
    | named hargs =>
      rw [under_named]
      exact .named (forall₂_outlines_map ih hargs)
  | tuple elems ih =>
    cases h with
    | tuple helems =>
      rw [under_tuple]
      exact .tuple (forall₂_outlines_map ih helems)
  | var => exact .var
  | app => exact .app
  | fn => exact .fn

theorem Outlines.applyTo {t u : Ty} (h : t.Outlines u) {as bs : List Ty}
    (hargs : Forall₂ Outlines as bs) : (t.applyTo as).Outlines (u.applyTo bs) := by
  cases hargs with
  | nil => exact h
  | cons ha has =>
    cases h with
    | named hbefore => exact .named (rel_append hbefore (.cons ha has))
    | prim | tuple | var | app | fn => exact .app

/-- A type under two valuations is built alike if its variables are. -/
theorem outlines_under_under (t : Ty) {V W : Valuation}
    (h : ∀ v, (V.types v).Outlines (W.types v)) : (t.under V).Outlines (t.under W) := by
  induction t with
  | prim => exact .prim
  | var v => exact h v
  | named name args ih =>
    rw [under_named, under_named]
    exact .named (forall₂_of_forall_mem ih)
  | tuple elems ih =>
    rw [under_tuple, under_tuple]
    exact .tuple (forall₂_of_forall_mem ih)
  | app head args ihHead ihArgs =>
    rw [under_app, under_app]
    exact ihHead.applyTo (forall₂_of_forall_mem ihArgs)
  | fn =>
    rw [under_fn]
    exact .fn

end Ty

/-- Inserting related values under the same keys keeps look-ups related. -/
theorem Dict.rel_get?_foldl_insert {κ α β : Type} [DecidableEq κ] [Ord κ] [Std.LawfulEqOrd κ]
    {R : α → β → Prop} (keys : List κ) {as : List α} {bs : List β} (h : Forall₂ R as bs)
    {d : Dict κ α} {d' : Dict κ β} (hd : ∀ k, Option.Rel R (d.get? k) (d'.get? k)) (k : κ) :
    Option.Rel R
      (((keys.zip as).foldl (fun d entry => d.insert entry.1 entry.2) d).get? k)
      (((keys.zip bs).foldl (fun d entry => d.insert entry.1 entry.2) d').get? k) := by
  induction h generalizing keys d d' with
  | nil => simpa using hd k
  | cons hab _ ih =>
    cases keys with
    | nil => exact hd k
    | cons key keys =>
      refine ih keys fun k' => ?_
      rw [get?_insert, get?_insert]
      split
      · exact .some hab
      · exact hd k'

namespace DataType

theorem types_argumentSubst (d : DataType) (args : List Ty) :
    (d.argumentSubst args).types = Dict.ofList (d.paramVars.zip args) :=
  (foldl_hom Subst.types fun _ _ => rfl).symm

/-- A parameter is an outline of what following its binding leads to. -/
theorem outlines_arguments (d : DataType) {args args' : List Ty}
    (hargs : Forall₂ Ty.Outlines args args') (v : TypeVar) :
    ((d.arguments args).types v).Outlines ((d.argumentSubst args').valuation.types v) := by
  have hrel : Option.Rel Ty.Outlines ((Dict.ofList (d.paramVars.zip args)).get? v)
      ((d.argumentSubst args').types.get? v) := by
    rw [types_argumentSubst]
    exact Dict.rel_get?_foldl_insert d.paramVars hargs (fun _ => .none) v
  change (((Dict.ofList (d.paramVars.zip args)).get? v).getD (.var v)).Outlines _
  generalize (Dict.ofList (d.paramVars.zip args)).get? v = found at hrel ⊢
  generalize hbound : (d.argumentSubst args').types.get? v = bound at hrel
  cases hrel with
  | none => exact .var
  | some h =>
    -- a bound parameter leaves at least one step, which replaces variables of the argument
    rcases hsize : (d.argumentSubst args').types.size with _ | n
    · have hentry := Dict.mem_entries_of_get? hbound
      rw [eq_nil_of_length_eq_zero hsize] at hentry
      cases hentry
    · rw [Subst.valuation, hsize]
      simp only [Subst.resolveType, hbound]
      exact h.under ⟨_, _⟩

/-- The fields of a constructor are outlines of the fields that are searched. -/
theorem outlines_fieldsAt (d : DataType) {args args' : List Ty}
    (hargs : Forall₂ Ty.Outlines args args') (c : Constructor) :
    Forall₂ Ty.Outlines (d.fieldTypes args c) (d.fieldsAt args' c) :=
  Ty.forall₂_of_forall_mem fun t _ => t.outlines_under_under (d.outlines_arguments hargs)

end DataType

/-- A constructor is searched in place of one whose fields are outlines of its fields. -/
@[mk_iff]
structure Coverage.Case.StandsFor (c' c : Coverage.Case) : Prop where
  name : c.name = c'.name
  fields : Forall₂ Ty.Outlines c.fields c'.fields

namespace Coverage

variable {types : DataTypes} {t u : Ty}

theorem forall₂_variants_casesOf (h : t.Outlines u) (ht : variants types t ≠ []) :
    Forall₂ (fun c c' => c'.StandsFor c) (variants types t) (casesOf types u) := by
  cases h with
  | @prim p => cases p <;> simp [variants, casesOf, Case.standsFor_iff]
  | @named name args args' hargs =>
    rcases hd : types.get? name with _ | d
    · simp [variants, hd] at ht
    · simp only [variants, casesOf, hd]
      rw [forall₂_map_left_iff, forall₂_map_right_iff, forall₂_same]
      exact fun c _ => ⟨rfl, d.outlines_fieldsAt hargs c⟩
  | tuple helems => exact .cons ⟨rfl, helems⟩ .nil
  | var | app | fn => exact (ht rfl).elim

private theorem exists_mem_right {α β : Type} {R : α → β → Prop} {as : List α} {bs : List β}
    (h : Forall₂ R as bs) {a : α} (ha : a ∈ as) : ∃ b ∈ bs, R a b := by
  induction h with
  | nil => cases ha
  | cons hab _ ih =>
    rcases mem_cons.mp ha with rfl | ha
    · exact ⟨_, .head _, hab⟩
    · obtain ⟨b, hb, hab⟩ := ih ha
      exact ⟨b, .tail _ hb, hab⟩

/-- Every constructor of a type is searched. -/
theorem exists_case_standsFor (h : t.Outlines u) {c : Case} (hc : c ∈ variants types t) :
    ∃ c' ∈ casesOf types u, c'.StandsFor c :=
  exists_mem_right (forall₂_variants_casesOf h (ne_nil_of_mem hc)) hc

/-- Only constructors of the type are searched. -/
theorem exists_variant_standsFor (h : t.Outlines u) (ht : variants types t ≠ []) {c' : Case}
    (hc' : c' ∈ casesOf types u) : ∃ c ∈ variants types t, c'.StandsFor c :=
  exists_mem_right (forall₂_variants_casesOf h ht).flip hc'

end Coverage

end RowTyping
