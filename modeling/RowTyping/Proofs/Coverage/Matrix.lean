import RowTyping.Proofs.Check.Valid
import RowTyping.Proofs.Coverage.Correctness
import RowTyping.Proofs.Infer.Declared

/-!
# Matrices of patterns that fit their columns

The search for missing patterns starts with patterns that fit the type they are matched with.
Splitting a column by a constructor and dropping a column keep a matrix whose rows fit the types of
the columns (`Coverage.Fitting.specialize`, `Coverage.Fitting.defaults`): a head in the column shows
that its type is a data type with all its arguments, and the fields of the constructor have the
types that the patterns were inferred with. The parameters of data types never get into the columns,
so the arguments of a data type can be put in their place without a cycle
(`DataType.acyclic_argumentSubst`).
-/

namespace RowTyping

open List

open Infer

/-- Every data type is stored under its name, a constructor is found by its name, and its fields
mention only the parameters of its data type. -/
structure DataTypes.Consistent (types : DataTypes) : Prop where
  name : ∀ {n d}, types.get? n = some d → d.name = n
  constructor : ∀ {n d con}, types.get? n = some d → con ∈ d.constructors →
    types.constructor? con.name = some (d, con)
  fields : ∀ {n d con}, types.get? n = some d → con ∈ d.constructors →
    ∀ t ∈ con.fields, t.Over (IsParam d)

/-! ## Arguments in place of parameters -/

namespace DataType

variable {d : DataType} {args : List Ty} {v : TypeVar} {x : Var}

private theorem mem_zip_of_foldl {entries : List (TypeVar × Ty)} {s : Subst} {t : Ty}
    (h : (entries.foldl (fun s entry => s.bindType entry.1 entry.2) s).types.get? v = some t) :
    (v, t) ∈ entries ∨ s.types.get? v = some t := by
  induction entries generalizing s with
  | nil => exact .inr h
  | cons entry entries ih =>
    rcases ih h with hmem | hs
    · exact .inl (.tail _ hmem)
    · simp only [Subst.bindType, Dict.get?_insert] at hs
      split at hs
      · rename_i heq
        obtain rfl := Option.some.inj hs
        exact .inl (heq ▸ (.head _))
      · exact .inr hs

theorem mem_zip_of_argumentSubst {t : Ty} (h : (d.argumentSubst args).types.get? v = some t) :
    (v, t) ∈ d.paramVars.zip args :=
  (mem_zip_of_foldl h).resolve_right (by simp [Subst.empty, Dict.get?, Dict.lookup])

theorem effects_argumentSubst (d : DataType) (args : List Ty) :
    (d.argumentSubst args).effects = {} := by
  unfold argumentSubst
  induction d.paramVars.zip args using List.reverseRecOn with
  | nil => rfl
  | append_singleton entries entry ih => simpa [Subst.bindType] using ih

theorem binds_argumentSubst (h : (d.argumentSubst args).Binds x) : IsParam d x := by
  cases x with
  | type v =>
    obtain ⟨t, ht⟩ := Option.isSome_iff_exists.mp h
    exact ⟨v, (of_mem_zip (mem_zip_of_argumentSubst ht)).1, rfl⟩
  | effect e =>
    rw [Subst.Binds, effects_argumentSubst] at h
    cases h

theorem leadsTo_argumentSubst {y : Var} (h : (d.argumentSubst args).LeadsTo x y) :
    ∃ t ∈ args, y ∈ t.occurrences := by
  rcases Subst.leadsTo_iff.mp h with ⟨v, t, rfl, ht, hy⟩ | ⟨e, r, f, rfl, hr, -⟩
  · exact ⟨t, (of_mem_zip (mem_zip_of_argumentSubst ht)).2, hy⟩
  · rw [effects_argumentSubst] at hr
    cases hr

/-- Arguments that mention no parameter of the data type bind the parameters without a cycle. -/
theorem acyclic_argumentSubst (hargs : ∀ t ∈ args, t.Over fun x => ¬ IsParam d x) :
    (d.argumentSubst args).Acyclic := by
  refine Subst.acyclic_empty.of_sinks fun x y hxy => .inr fun hy => ?_
  obtain ⟨t, ht, hyt⟩ := leadsTo_argumentSubst hxy
  exact hargs t ht y hyt (binds_argumentSubst hy)

/-- Whatever a parameter leads to is mentioned by an argument. -/
theorem mem_image_argumentSubst (hargs : ∀ t ∈ args, t.Over fun x => ¬ IsParam d x) {y : Var}
    (hx : (d.argumentSubst args).Binds x) (hy : y ∈ (d.argumentSubst args).valuation.image x) :
    ∃ t ∈ args, y ∈ t.occurrences := by
  obtain ⟨hpath, hunbound⟩ := (acyclic_argumentSubst hargs).mem_image hy
  rcases Relation.ReflTransGen.cases_tail hpath with rfl | ⟨z, -, hzy⟩
  · exact (hunbound hx).elim
  · exact leadsTo_argumentSubst hzy

private theorem get?_foldl_self {f : TypeVar → Ty} {vs : List TypeVar} {s : Subst}
    (h : v ∈ vs ∨ s.types.get? v = some (f v)) :
    ((vs.map fun w => (w, f w)).foldl (fun s entry => s.bindType entry.1 entry.2) s).types.get? v =
      some (f v) := by
  induction vs generalizing s with
  | nil => simpa using h
  | cons w vs ih =>
    refine ih ?_
    simp only [Subst.bindType, Dict.get?_insert]
    by_cases hvw : v = w
    · exact .inr (by rw [if_pos hvw, hvw])
    · rw [if_neg hvw]
      exact h.imp_left fun hv => (mem_cons.mp hv).resolve_left hvw

theorem get?_argumentSubst (d : DataType) (f : TypeVar → Ty) (hv : v ∈ d.paramVars) :
    (d.argumentSubst (d.paramVars.map f)).types.get? v = some (f v) := by
  rw [argumentSubst, ← map_prod_left_eq_zip]
  exact get?_foldl_self (.inl hv)

/-- The fields of a constructor when the arguments are what the parameters stand for. -/
theorem fieldsAt_eq {V : Valuation} {con : Constructor}
    (hargs : ∀ t ∈ d.paramVars.map V.types, t.Over fun x => ¬ IsParam d x)
    (hfields : ∀ t ∈ con.fields, t.Over (IsParam d)) :
    d.fieldsAt (d.paramVars.map V.types) con = (con.fields.map (·.under V)).map
      (·.under .self) := by
  rw [fieldsAt, map_map]
  refine map_congr_left fun t ht => ?_
  rw [Subst.apply_eq_under, Function.comp_apply, ← Ty.under_andThen]
  refine Ty.under_congr fun x hx => ?_
  obtain ⟨v, hv, rfl⟩ := hfields t ht x hx
  -- the argument mentions no bound variable, so that one step reaches the end
  refine ((acyclic_argumentSubst hargs).types_of_bound (get?_argumentSubst d V.types hv)).trans ?_
  refine Ty.under_congr fun y hy => ?_
  have hunbound : ¬ (d.argumentSubst (d.paramVars.map V.types)).Binds y := fun hbound =>
    hargs _ (mem_map_of_mem hv) y hy (binds_argumentSubst hbound)
  cases y with
  | type w => exact Subst.types_of_unbound (Option.not_isSome_iff_eq_none.mp hunbound)
  | effect e => exact Subst.effects_of_unbound (Option.not_isSome_iff_eq_none.mp hunbound)

end DataType

/-! ## Patterns that fit -/

namespace Pattern

variable {reg : Registry}

mutual

/-- A pattern that fits a type fits it under every valuation. -/
theorem Fits.under {p : Pattern} {t : Ty} {bindings : List (String × Ty)} (W : Valuation) :
    p.Fits reg t bindings → ∃ bindings', p.Fits reg (t.under W) bindings'
  | .wildcard => ⟨_, .wildcard⟩
  | .var => ⟨_, .var⟩
  | .lit => by
    rw [Literal.under_type]
    exact ⟨[], .lit⟩
  | .constructor (c := c) V hc hfits => by
    obtain ⟨bindings', hfits'⟩ := FitsAll.under W hfits
    refine ⟨bindings', ?_⟩
    rw [← Ty.under_andThen]
    refine .constructor _ hc ?_
    rw [map_map] at hfits'
    rwa [map_congr_left fun t (_ : t ∈ c.fields) => Ty.under_andThen V W t]
  | .tuple hfits => by
    obtain ⟨bindings', hfits'⟩ := FitsAll.under W hfits
    rw [Ty.under_tuple]
    exact ⟨bindings', .tuple hfits'⟩

theorem FitsAll.under {ps : List Pattern} {ts : List Ty} {bindings : List (String × Ty)}
    (W : Valuation) :
    FitsAll reg ps ts bindings → ∃ bindings', FitsAll reg ps (ts.map (·.under W)) bindings'
  | .nil => ⟨[], .nil⟩
  | .cons hfirst hrest => by
    obtain ⟨first, hfirst'⟩ := Fits.under W hfirst
    obtain ⟨rest, hrest'⟩ := FitsAll.under W hrest
    exact ⟨first ++ rest, .cons hfirst' hrest'⟩

end

theorem FitsAll.append {ps qs : List Pattern} {ts us : List Ty} {first rest : List (String × Ty)}
    (h : FitsAll reg ps ts first) (h' : FitsAll reg qs us rest) :
    ∃ bindings, FitsAll reg (ps ++ qs) (ts ++ us) bindings := by
  induction ts generalizing ps first with
  | nil =>
    cases h
    exact ⟨rest, h'⟩
  | cons t ts ih =>
    cases h with
    | cons hp hps =>
      obtain ⟨bindings, hfits⟩ := ih hps
      exact ⟨_, .cons hp hfits⟩

theorem fitsAll_wildcards (reg : Registry) (ts : List Ty) (span : Span) :
    ∃ bindings, FitsAll reg (List.replicate ts.length (.wildcard span)) ts bindings := by
  induction ts with
  | nil => exact ⟨[], .nil⟩
  | cons t ts ih =>
    obtain ⟨bindings, hfits⟩ := ih
    exact ⟨_, .cons .wildcard hfits⟩

end Pattern

namespace Coverage

variable {reg : Registry} {t : Ty} {columns : List Ty} {rows : List PatternRow} {c : Case}
  {d : DataType} {name : String} {p : Pattern}

/-- The rows of a matrix fit the types of its columns, which mention no parameter of a data type. -/
structure Fitting (reg : Registry) (rows : List PatternRow) (columns : List Ty) : Prop where
  rows : ∀ row ∈ rows, ∃ bindings, Pattern.FitsAll reg row columns bindings
  apart : ∀ t ∈ columns, t.Over reg.dataTypes.NoParam

/-- The arguments of a data type in a column bind its parameters without a cycle. -/
theorem Fitting.acyclic_argumentSubst {args : List Ty}
    (h : Fitting reg rows (.named name args :: columns))
    (hd : reg.dataTypes.get? name = some d) : (d.argumentSubst args).Acyclic := by
  refine DataType.acyclic_argumentSubst fun t ht x hx => ?_
  exact h.apart _ (.head _) x (Ty.mem_occurrences_named.mpr ⟨t, ht, hx⟩) _ _ hd

/-- A pattern whose head is a constructor of a data type fits only that data type with all its
arguments. -/
private theorem fits_named (hreg : reg.dataTypes.Consistent) {args : List Ty}
    {bindings : List (String × Ty)}
    {con : Constructor} (hd : reg.dataTypes.get? name = some d) (hcon : con ∈ d.constructors)
    (hp : p.headName? = some con.name) (hfits : p.Fits reg (.named name args) bindings) :
    ∃ V : Valuation, args = d.paramVars.map V.types ∧
      Pattern.FitsAll reg p.subpatterns (con.fields.map (·.under V)) bindings := by
  generalize ht : Ty.named name args = t at hfits
  cases hfits with
  | wildcard => cases hp
  | var => cases hp
  | lit => exact absurd ht (by rename_i value; cases value <;> simp [Literal.type])
  | tuple => cases ht
  | @constructor span conName ps d' con' bindings V hc hargs =>
    obtain rfl : conName = con.name := Option.some.inj hp
    rw [hreg.constructor hd hcon] at hc
    obtain ⟨rfl, rfl⟩ := Prod.mk.inj (Option.some.inj hc)
    rw [DataType.resultType, Ty.under_named, Ty.named.injEq] at ht
    refine ⟨V, ht.2.trans ?_, hargs⟩
    rw [map_map]
    rfl

/-- The fields of a constructor have the types its patterns fit, once the arguments are put in
place. -/
private theorem fields_named (hreg : reg.dataTypes.Consistent) {con : Constructor} {V : Valuation}
    (hd : reg.dataTypes.get? name = some d) (hcon : con ∈ d.constructors)
    (hover : (Ty.named name (d.paramVars.map V.types)).Over reg.dataTypes.NoParam) :
    d.fieldsAt (d.paramVars.map V.types) con = (con.fields.map (·.under V)).map (·.under .self) ∧
      ∀ t ∈ d.fieldsAt (d.paramVars.map V.types) con, t.Over reg.dataTypes.NoParam := by
  have hargs : ∀ t ∈ d.paramVars.map V.types, t.Over reg.dataTypes.NoParam := fun t ht x hx =>
    hover x (Ty.mem_occurrences_named.mpr ⟨t, ht, hx⟩)
  have hapart : ∀ t ∈ d.paramVars.map V.types, t.Over fun x => ¬ IsParam d x := fun t ht =>
    (hargs t ht).mono fun x hx => hx _ _ hd
  refine ⟨DataType.fieldsAt_eq hapart (hreg.fields hd hcon), forall_mem_map.mpr fun t ht x hx => ?_⟩
  -- all variables of the field are parameters, and these are bound to the arguments
  obtain ⟨y, hy, hxy⟩ := Subst.mem_occurrences_apply.mp hx
  obtain ⟨v, hv, rfl⟩ := hreg.fields hd hcon t ht y hy
  have hbound : (d.argumentSubst (d.paramVars.map V.types)).Binds (.type v) :=
    Option.isSome_iff_exists.mpr ⟨_, DataType.get?_argumentSubst d V.types hv⟩
  obtain ⟨arg, harg, hxarg⟩ := DataType.mem_image_argumentSubst hapart hbound hxy
  exact hargs arg harg x hxarg

/-- The subpatterns of a head fit the fields of its constructor. -/
theorem fits_subpatterns (hreg : reg.dataTypes.Consistent) {bindings : List (String × Ty)}
    (hfits : p.Fits reg t bindings) (hover : t.Over reg.dataTypes.NoParam)
    (hc : c ∈ casesOf reg.dataTypes t) (hp : p.headName? = some c.name) :
    (∃ bindings', Pattern.FitsAll reg p.subpatterns c.fields bindings') ∧
      ∀ t' ∈ c.fields, t'.Over reg.dataTypes.NoParam := by
  cases t with
  | prim q =>
    -- only literals fit, and their constructors have no fields
    have hfields : c.fields = [] := by
      cases q with
      | bool => rcases mem_pair.mp hc with rfl | rfl <;> rfl
      | unit => rw [mem_singleton.mp hc]
      | int | float | string => cases hc
    have hsub : p.subpatterns = [] := by
      cases p with
      | constructor | tuple => cases hfits
      | lit | wildcard | var => rfl
    rw [hfields, hsub]
    exact ⟨⟨[], .nil⟩, by simp⟩
  | tuple elems =>
    obtain rfl : c = ⟨"(,)", elems⟩ := by simpa [casesOf] using hc
    cases p with
    | tuple span ps =>
      cases hfits with
      | tuple hps => exact ⟨⟨_, hps⟩, Ty.over_tuple.mp hover⟩
    | lit span value =>
      generalize ht : Ty.tuple elems = u at hfits
      cases hfits
      cases value <;> cases ht
    | constructor => cases hfits
    | wildcard | var => cases hp
  | named name args =>
    rcases hd : reg.dataTypes.get? name with _ | d
    · simp [casesOf, hd] at hc
    simp only [casesOf, hd, mem_map] at hc
    obtain ⟨con, hcon, rfl⟩ := hc
    obtain ⟨V, rfl, hps⟩ := fits_named hreg hd hcon hp hfits
    obtain ⟨hfields, hapart⟩ := fields_named hreg hd hcon hover
    exact ⟨hfields ▸ hps.under .self, hapart⟩
  | var | app | fn => cases hc

theorem Fitting.of_cons {ps : PatternRow} (h : Fitting reg rows (t :: columns))
    (hrow : p :: ps ∈ rows) :
    (∃ bindings, p.Fits reg t bindings) ∧ ∃ bindings, Pattern.FitsAll reg ps columns bindings := by
  obtain ⟨bindings, hfits⟩ := h.rows _ hrow
  cases hfits with
  | cons hfirst hrest => exact ⟨⟨_, hfirst⟩, _, hrest⟩

/-- Dropping the first column keeps a matrix that fits. -/
theorem Fitting.defaults (h : Fitting reg rows (t :: columns)) :
    Fitting reg (defaults rows) columns where
  rows row hrow := by
    obtain ⟨p, hp, -⟩ := mem_defaults.mp hrow
    exact (h.of_cons hp).2
  apart u hu := h.apart u (.tail _ hu)

/-- Splitting the first column by a constructor that heads a row keeps a matrix that fits. -/
theorem Fitting.specialize (hreg : reg.dataTypes.Consistent) (h : Fitting reg rows (t :: columns))
    (hc : c ∈ casesOf reg.dataTypes t) (hhead : c.name ∈ heads rows) :
    Fitting reg (specialize c rows) (c.fields ++ columns) where
  rows row hrow := by
    obtain ⟨p, ps, hp, ⟨-, rfl⟩ | ⟨hname, rfl⟩⟩ := mem_specialize.mp hrow
    · obtain ⟨_, hps⟩ := (h.of_cons hp).2
      obtain ⟨_, hwild⟩ := Pattern.fitsAll_wildcards reg c.fields .synthetic
      exact hwild.append hps
    · obtain ⟨⟨_, hfits⟩, _, hps⟩ := h.of_cons hp
      obtain ⟨⟨_, hsub⟩, -⟩ := fits_subpatterns hreg hfits (h.apart t (.head _)) hc hname
      exact hsub.append hps
  apart u hu := by
    obtain ⟨p, ps, hp, hname⟩ := mem_heads.mp hhead
    obtain ⟨⟨_, hfits⟩, -⟩ := h.of_cons hp
    rcases mem_append.mp hu with hfield | hcolumn
    · exact (fits_subpatterns hreg hfits (h.apart t (.head _)) hc hname).2 u hfield
    · exact h.apart u (.tail _ hcolumn)

/-! ## Rectangular matrices -/

/-- Every row has a pattern for each column. A pattern of the first column that starts with a
constructor of the column's type has a subpattern for each field of the constructor. -/
structure Rectangular (types : DataTypes) (rows : List PatternRow) (columns : List Ty) : Prop where
  lengths : ∀ row ∈ rows, row.length = columns.length
  subpatterns : ∀ t ∈ columns.head?, ∀ row ∈ rows, ∀ p ∈ row.head?, ∀ c ∈ casesOf types t,
    p.headName? = some c.name → p.subpatterns.length = c.fields.length

theorem Fitting.rectangular (hreg : reg.dataTypes.Consistent) (h : Fitting reg rows columns) :
    Rectangular reg.dataTypes rows columns where
  lengths row hrow := by
    obtain ⟨_, hfits⟩ := h.rows row hrow
    exact hfits.length_eq.symm
  subpatterns t ht row hrow p hp c hc hname := by
    obtain ⟨columns, rfl⟩ := head?_eq_some_iff.mp ht
    obtain ⟨ps, rfl⟩ := head?_eq_some_iff.mp hp
    obtain ⟨⟨_, hfits⟩, -⟩ := h.of_cons hrow
    obtain ⟨⟨_, hsub⟩, -⟩ := fits_subpatterns hreg hfits (h.apart t (.head _)) hc hname
    exact hsub.length_eq.symm

/-- A row of witnesses has one for each column. -/
theorem length_of_mem_missing {types : DataTypes} (rows : List PatternRow) (columns : List Ty)
    {ws : List Witness} (h : ws ∈ missing types rows columns) : ws.length = columns.length := by
  induction rows, columns using missing.induct types generalizing ws with
  | case1 rows hempty =>
    obtain rfl : ws = [] := by simpa [missing, hempty] using h
    rfl
  | case2 rows hne => simp [missing, hne] at h
  | case3 rows t columns hcomplete ih =>
    obtain ⟨c, hc, sub, hsub, rfl⟩ := (mem_missing_of_isComplete hcomplete).mp h
    have hlength := ih c hc hsub
    simp only [length_append] at hlength
    simp only [gather, length_cons, length_drop]
    omega
  | case4 rows t columns hincomplete ih =>
    obtain ⟨w, -, sub, hsub, rfl⟩ := (mem_missing_of_not_isComplete hincomplete).mp h
    simp [ih hsub]

end Coverage

end RowTyping
