import Mathlib
import RowTyping.Check.Component
import RowTyping.Proofs.Coverage.Values

/-!
# Correctness of the search for missing patterns

A matrix of patterns covers a row of values if one of its rows matches them. Splitting the first
column by a constructor and dropping it keep what is covered (`covers_specialize_iff`,
`covers_defaults_of_covers`), so by induction along the search a matrix without missing rows covers
every row of values (`covers_of_missing_eq_nil`), and every missing row of patterns matches a row of
values that is not covered (`exists_not_covered_of_mem_missing`). The arms of a choice are the case
of one column.
-/

namespace RowTyping

open List

namespace Coverage

variable {types : DataTypes} {t : Ty} {ts : List Ty} {rows : List PatternRow} {name : String}
  {v : Value}
  {vs : List Value} {columns : List Ty} {u : Ty} {ws : List Witness} {cases : List Case}
    {w : Witness} {p : Pattern}
  {arms : List Pattern}

/-- Every row has a pattern for every type. -/
def Suited (types : DataTypes) (rows : List PatternRow) (ts : List Ty) : Prop :=
  ∀ row ∈ rows, Forall₂ (Pattern.Suits types) row ts

/-- Some row matches the values. -/
def Covers (rows : List PatternRow) (vs : List Value) : Prop :=
  ∃ row ∈ rows, Forall₂ Pattern.Matches row vs

/-! ## Splitting and dropping a column -/

/-- Lists that start with parts of the same length are related if both parts are. -/
private theorem forall₂_append_iff {α β : Type} {R : α → β → Prop} {as as' : List α}
    {bs bs' : List β} (h : as.length = bs.length) :
    Forall₂ R (as ++ as') (bs ++ bs') ↔ Forall₂ R as bs ∧ Forall₂ R as' bs' := by
  induction as generalizing bs with
  | nil => cases bs <;> simp_all
  | cons a as ih => cases bs <;> simp_all [and_assoc]

theorem mem_heads : name ∈ heads rows ↔ ∃ p ps, p :: ps ∈ rows ∧ p.headName? = some name := by
  rw [heads, mem_filterMap]
  constructor
  · rintro ⟨_ | ⟨p, ps⟩, hrow, hname⟩
    · cases hname
    · exact ⟨p, ps, hrow, hname⟩
  · rintro ⟨p, ps, hrow, hname⟩
    exact ⟨p :: ps, hrow, hname⟩

theorem mem_defaults {ps : PatternRow} :
    ps ∈ defaults rows ↔ ∃ p, p :: ps ∈ rows ∧ p.isCatchAll = true := by
  rw [defaults, mem_filterMap]
  constructor
  · rintro ⟨_ | ⟨p, ps'⟩, hrow, h⟩
    · cases h
    · rw [defaultRow] at h
      split at h
      · cases h
        exact ⟨p, hrow, ‹_›⟩
      · cases h
  · rintro ⟨p, hrow, hp⟩
    exact ⟨p :: ps, hrow, by rw [defaultRow, if_pos hp]⟩

/-- A split keeps a row that starts with a catch-all or with the constructor. -/
theorem mem_specialize {c : Case} {row : PatternRow} :
    row ∈ specialize c rows ↔ ∃ p ps, p :: ps ∈ rows ∧
      (p.isCatchAll = true ∧ row = List.replicate c.fields.length (.wildcard .synthetic) ++ ps ∨
        p.headName? = some c.name ∧ row = p.subpatterns ++ ps) := by
  rw [specialize, mem_filterMap]
  constructor
  · rintro ⟨_ | ⟨p, ps⟩, hrow, h⟩
    · cases h
    · refine ⟨p, ps, hrow, ?_⟩
      rw [specializeRow] at h
      split at h
      · exact .inl ⟨‹_›, (Option.some.inj h).symm⟩
      · split at h
        · exact .inr ⟨‹_›, (Option.some.inj h).symm⟩
        · cases h
  · rintro ⟨p, ps, hrow, ⟨hp, rfl⟩ | ⟨hp, rfl⟩⟩
    · exact ⟨p :: ps, hrow, by rw [specializeRow, if_pos hp]⟩
    · have hcatch : ¬ p.isCatchAll = true := by
        cases p <;> simp_all [Pattern.headName?, Pattern.isCatchAll]
      exact ⟨p :: ps, hrow, by rw [specializeRow, if_neg hcatch, if_pos hp]⟩

theorem Suited.defaults (h : Suited types rows (t :: ts)) : Suited types (defaults rows) ts := by
  intro ps hps
  obtain ⟨p, hrow, -⟩ := mem_defaults.mp hps
  exact (forall₂_cons.mp (h _ hrow)).2

private theorem forall₂_replicate {α β : Type} {R : α → β → Prop} {a : α} (h : ∀ b, R a b)
    {n : Nat} {bs : List β} (hn : n = bs.length) : Forall₂ R (List.replicate n a) bs := by
  subst hn
  induction bs with
  | nil => exact .nil
  | cons b bs ih => exact .cons (h b) ih

section Split

variable (hnames : types.UniqueNames) (hrows : Suited types rows (t :: ts)) {c c' : Case}
  (hc : c ∈ variants types t) (hc' : c'.StandsFor c)

include hnames hc hc' in
theorem suits_subpatterns {p : Pattern} (hp : p.Suits types t)
    (hhead : p.headName? = some c'.name) :
    Forall₂ (Pattern.Suits types) p.subpatterns c.fields := by
  obtain ⟨d, hd, hname, hsub⟩ := hp.exists_variant hhead
  obtain rfl := eq_of_mem_variants hnames hd hc (hname.trans hc'.name.symm)
  exact hsub

include hnames hrows hc hc'

theorem Suited.specialize : Suited types (specialize c' rows) (c.fields ++ ts) := by
  intro row hmem
  obtain ⟨p, ps, hrow, hcase⟩ := mem_specialize.mp hmem
  obtain ⟨hp, hps⟩ := forall₂_cons.mp (hrows _ hrow)
  rcases hcase with ⟨-, rfl⟩ | ⟨hhead, rfl⟩
  · exact rel_append (forall₂_replicate (fun _ => .wildcard) hc'.fields.length_eq.symm) hps
  · exact rel_append (suits_subpatterns hnames hc hc' hp hhead) hps

/-- A value built by a constructor is covered if its fields are once the column is split. -/
theorem covers_specialize_iff {v : Value} (hv : v.HasType types t) {fields : List Value}
    (hhead : v.head? = some (c.name, fields))
    (hfields : Forall₂ (Value.HasType types) fields c.fields) {vs : List Value} :
    Covers (Coverage.specialize c' rows) (fields ++ vs) ↔ Covers rows (v :: vs) := by
  have hlength : c'.fields.length = fields.length :=
    hc'.fields.length_eq.symm.trans hfields.length_eq.symm
  -- rows that start with the constructor have a pattern for each of its fields
  have hrow {p : Pattern} (hp : p.Suits types t) (hname : p.headName? = some c'.name)
      {ps : PatternRow} : Forall₂ Pattern.Matches (p.subpatterns ++ ps) (fields ++ vs) ↔
        Forall₂ Pattern.Matches (p :: ps) (v :: vs) := by
    have hsub := suits_subpatterns hnames hc hc' hp hname
    rw [forall₂_append_iff (hsub.length_eq.trans hfields.length_eq.symm), forall₂_cons,
      Pattern.matches_iff_of_head hp hv hname (hc'.name ▸ hhead)]
  constructor
  · rintro ⟨row, hmem, hmatch⟩
    obtain ⟨p, ps, hp, ⟨hcatch, rfl⟩ | ⟨hname, rfl⟩⟩ := mem_specialize.mp hmem
    · rw [forall₂_append_iff (by simpa using hlength)] at hmatch
      exact ⟨_, hp, .cons (Pattern.matches_of_isCatchAll hcatch v) hmatch.2⟩
    · exact ⟨_, hp, (hrow (forall₂_cons.mp (hrows _ hp)).1 hname).mp hmatch⟩
  · rintro ⟨_ | ⟨p, ps⟩, hmem, hmatch⟩
    · cases hmatch
    · obtain ⟨hp, hps⟩ := forall₂_cons.mp hmatch
      rcases hp.head hhead with hp | hname
      · exact ⟨_, mem_specialize.mpr ⟨p, ps, hmem, .inl ⟨hp, rfl⟩⟩,
          rel_append (forall₂_replicate (fun _ => .wildcard) hlength) hps⟩
      · rw [hc'.name] at hname
        exact ⟨_, mem_specialize.mpr ⟨p, ps, hmem, .inr ⟨hname, rfl⟩⟩,
          (hrow (forall₂_cons.mp (hrows _ hmem)).1 hname).mpr hmatch⟩

end Split

/-- A row of values is covered if its tail is covered by the rows that start with a catch-all. -/
theorem covers_of_covers_defaults (h : Covers (defaults rows) vs) : Covers rows (v :: vs) := by
  obtain ⟨ps, hmem, hmatch⟩ := h
  obtain ⟨p, hrow, hp⟩ := mem_defaults.mp hmem
  exact ⟨p :: ps, hrow, .cons (Pattern.matches_of_isCatchAll hp v) hmatch⟩

/-! ## The search -/

theorem mem_missing_of_isComplete (h : isComplete (casesOf types u) (heads rows) = true) :
    ws ∈ missing types rows (u :: columns) ↔ ∃ c ∈ casesOf types u,
      ∃ sub ∈ missing types (specialize c rows) (c.fields ++ columns), gather c sub = ws := by
  rw [missing, dif_pos h]
  simp

theorem mem_missing_of_not_isComplete (h : ¬ isComplete (casesOf types u) (heads rows) = true) :
    ws ∈ missing types rows (u :: columns) ↔ ∃ w ∈ missingHeads (casesOf types u) (heads rows),
      ∃ sub ∈ missing types (defaults rows) columns, w :: sub = ws := by
  rw [missing, dif_neg h]
  simp

theorem mem_missingHeads {names : List String} (hcases : cases ≠ []) (hnames : names ≠ []) :
    w ∈ missingHeads cases names ↔ ∃ c ∈ cases, c.name ∉ names ∧
      .case c.name (List.replicate c.fields.length .any) = w := by
  rw [missingHeads, if_neg (by simp [hcases, hnames])]
  simp [and_assoc]

theorem missingHeads_ne_nil {names : List String} (h : ¬ isComplete cases names = true) :
    missingHeads cases names ≠ [] := by
  intro hnil
  rw [missingHeads] at hnil
  split at hnil
  · cases hnil
  · -- no constructor is left, so all of them are heads
    refine h ?_
    simp_all [isComplete]

/-- A column with a head has a type with constructors. -/
theorem Suited.variants_ne_nil (h : Suited types rows (t :: ts)) (hheads : heads rows ≠ []) :
    variants types t ≠ [] := by
  obtain ⟨name, hname⟩ := exists_mem_of_ne_nil _ hheads
  obtain ⟨p, ps, hrow, hp⟩ := mem_heads.mp hname
  obtain ⟨c, hc, -⟩ := (forall₂_cons.mp (h _ hrow)).1.exists_variant hp
  exact ne_nil_of_mem hc

theorem heads_ne_nil_of_isComplete (h : isComplete cases (heads rows) = true) :
    heads rows ≠ [] := by
  intro hnil
  rcases cases with _ | ⟨c, cases⟩ <;> simp [isComplete, hnil] at h

/-- A matrix without missing rows covers every row of values. -/
theorem covers_of_missing_eq_nil (hnames : types.UniqueNames) (h : missing types rows columns = [])
    (hts : Forall₂ Ty.Outlines ts columns) (hrows : Suited types rows ts)
    (hvs : Forall₂ (Value.HasType types) vs ts) : Covers rows vs := by
  induction rows, columns using missing.induct types generalizing ts vs with
  | case1 rows hempty => simp [missing, hempty] at h
  | case2 rows hne =>
    obtain rfl := forall₂_nil_right_iff.mp hts
    obtain rfl := forall₂_nil_right_iff.mp hvs
    obtain ⟨row, hrow⟩ := exists_mem_of_ne_nil rows (by simpa using hne)
    exact ⟨row, hrow, forall₂_nil_right_iff.mp (hrows row hrow) ▸ .nil⟩
  | case3 rows u columns hcomplete ih =>
    -- the first value is built by a constructor of its type, and the matrix is split by it
    obtain ⟨t, ts, ht, hrest, rfl⟩ := forall₂_cons_right_iff.mp hts
    obtain ⟨v, vs, hv, hvrest, rfl⟩ := forall₂_cons_right_iff.mp hvs
    obtain ⟨c, hc, fields, hhead, hfields⟩ :=
      hv.exists_variant (hrows.variants_ne_nil (heads_ne_nil_of_isComplete hcomplete))
    obtain ⟨c', hmem, hc'⟩ := exists_case_standsFor ht hc
    refine (covers_specialize_iff hnames hrows hc hc' hv hhead hfields).mp ?_
    refine ih c' hmem ?_ (rel_append hc'.fields hrest) (hrows.specialize hnames hc hc')
      (rel_append hfields hvrest)
    refine eq_nil_iff_forall_not_mem.mpr fun sub hsub => ?_
    have := (mem_missing_of_isComplete hcomplete).mpr ⟨c', hmem, sub, hsub, rfl⟩
    rw [h] at this
    cases this
  | case4 rows u columns hincomplete ih =>
    obtain ⟨t, ts, ht, hrest, rfl⟩ := forall₂_cons_right_iff.mp hts
    obtain ⟨v, vs, hv, hvrest, rfl⟩ := forall₂_cons_right_iff.mp hvs
    refine covers_of_covers_defaults (ih ?_ hrest hrows.defaults hvrest)
    -- some head is missing, so the other columns must leave nothing out
    obtain ⟨w, hw⟩ := exists_mem_of_ne_nil _ (missingHeads_ne_nil hincomplete)
    refine eq_nil_iff_forall_not_mem.mpr fun sub hsub => ?_
    have := (mem_missing_of_not_isComplete hincomplete).mpr ⟨w, hw, sub, hsub, rfl⟩
    rw [h] at this
    cases this

/-! ## Missing rows are not covered -/

theorem Witness.renderAll_eq_map (ws : List Witness) : renderAll ws = ws.map render := by
  induction ws with
  | nil => rfl
  | cons w ws ih => rw [renderAll, ih, map_cons]

theorem writtenAs_render_case (hp : p.headName? = some name)
    (hws : Forall₂ (fun p w => p.WrittenAs w.render) p.subpatterns ws) :
    p.WrittenAs (Witness.case name ws).render := by
  rw [Witness.render, Witness.renderAll_eq_map]
  exact .head hp (forall₂_map_right_iff.mpr hws)

theorem literalsLeft_defaults (h : LiteralsLeft rows.flatten) :
    LiteralsLeft (defaults rows).flatten := by
  refine h.mono fun q hq value hmentions => ⟨q, ?_, hmentions⟩
  obtain ⟨ps, hps, hq⟩ := mem_flatten.mp hq
  obtain ⟨p, hrow, -⟩ := mem_defaults.mp hps
  exact mem_flatten.mpr ⟨_, hrow, .tail _ hq⟩

theorem literalsLeft_specialize (h : LiteralsLeft rows.flatten) (c : Case) :
    LiteralsLeft (specialize c rows).flatten := by
  refine h.mono fun q hq value hmentions => ?_
  obtain ⟨row, hmem, hq⟩ := mem_flatten.mp hq
  obtain ⟨p, ps, hrow, ⟨-, rfl⟩ | ⟨-, rfl⟩⟩ := mem_specialize.mp hmem
  · rcases mem_append.mp hq with hq | hq
    · -- the wildcards put in mention nothing
      obtain rfl := eq_of_mem_replicate hq
      cases hmentions with
      | sub hsub => cases hsub
    · exact ⟨q, mem_flatten.mpr ⟨_, hrow, .tail _ hq⟩, hmentions⟩
  · rcases mem_append.mp hq with hq | hq
    · exact ⟨p, mem_flatten.mpr ⟨_, hrow, .head _⟩, .sub hq hmentions⟩
    · exact ⟨q, mem_flatten.mpr ⟨_, hrow, .tail _ hq⟩, hmentions⟩

/-- A value that only catch-alls of the first column match is covered by them alone. -/
theorem covers_defaults_of_covers (h : Covers rows (v :: vs))
    (hv : ∀ p ps, p :: ps ∈ rows → p.Matches v → p.isCatchAll = true) :
    Covers (defaults rows) vs := by
  obtain ⟨_ | ⟨p, ps⟩, hrow, hmatch⟩ := h
  · cases hmatch
  · obtain ⟨hp, hps⟩ := forall₂_cons.mp hmatch
    exact ⟨ps, mem_defaults.mpr ⟨p, hrow, hv p ps hrow hp⟩, hps⟩

/-- Without heads in the first column, some value is matched by its catch-alls only. -/
theorem exists_value_of_heads_eq_nil (hinhabited : types.Inhabited)
    (hrows : Suited types rows (t :: ts)) (hliterals : LiteralsLeft rows.flatten)
    (hheads : heads rows = []) :
    ∃ v : Value, v.HasType types t ∧
      ∀ p ps, p :: ps ∈ rows → p.Matches v → p.isCatchAll = true := by
  by_cases hprim : ∃ prim ∈ [Prim.int, .float, .string], t = .prim prim
  · -- a literal that no pattern mentions
    obtain ⟨prim, hmem, rfl⟩ := hprim
    obtain ⟨value, htype, hnot⟩ := hliterals prim hmem
    refine ⟨.lit value, htype ▸ .lit, fun p ps hrow hmatch => ?_⟩
    cases hmatch with
    | wildcard | var => rfl
    | lit => exact (hnot _ (mem_flatten.mpr ⟨_, hrow, .head _⟩) .lit).elim
  · -- only literals of those types are neither catch-alls nor have a head
    obtain ⟨v, hv⟩ := Value.exists_hasType hinhabited t
    refine ⟨v, hv, fun p ps hrow _ => ?_⟩
    have hnone : p.headName? = none := by
      refine Option.eq_none_iff_forall_ne_some.mpr fun name hname => ?_
      have : name ∈ heads rows := mem_heads.mpr ⟨p, ps, hrow, hname⟩
      simp [hheads] at this
    cases (forall₂_cons.mp (hrows _ hrow)).1 with
    | wildcard | var => rfl
    | constructor | tuple => cases hnone
    | @lit span value =>
      cases value with
      | int => exact (hprim ⟨.int, by simp, rfl⟩).elim
      | float => exact (hprim ⟨.float, by simp, rfl⟩).elim
      | string => exact (hprim ⟨.string, by simp, rfl⟩).elim
      | bool b => cases b <;> cases hnone
      | unit => cases hnone

/-- Every missing head is a pattern for a value that only catch-alls of the column match. -/
theorem exists_value_of_mem_missingHeads (hinhabited : types.Inhabited)
    (hrows : Suited types rows (t :: ts))
    (hliterals : LiteralsLeft rows.flatten) (ht : t.Outlines u)
    (hw : w ∈ missingHeads (casesOf types u) (heads rows)) :
    ∃ p : Pattern, p.Suits types t ∧ p.WrittenAs w.render ∧
      ∃ v : Value, v.HasType types t ∧ p.Matches v ∧
        ∀ q qs, q :: qs ∈ rows → q.Matches v → q.isCatchAll = true := by
  by_cases hheads : heads rows = []
  · obtain rfl : w = .any := by simpa [missingHeads, hheads] using hw
    obtain ⟨v, hv, hmatch⟩ := exists_value_of_heads_eq_nil hinhabited hrows hliterals hheads
    exact ⟨.wildcard .synthetic, .wildcard, .wildcard, v, hv, .wildcard, hmatch⟩
  · have hvariants := hrows.variants_ne_nil hheads
    obtain ⟨c₀, hc₀⟩ := exists_mem_of_ne_nil _ hvariants
    obtain ⟨c₀', hc₀', -⟩ := exists_case_standsFor ht hc₀
    obtain ⟨c', hmem, hname, rfl⟩ := (mem_missingHeads (ne_nil_of_mem hc₀') hheads).mp hw
    obtain ⟨c, hc, hc'⟩ := exists_variant_standsFor ht hvariants hmem
    have hlength := hc'.fields.length_eq
    -- any values of the fields will do
    obtain ⟨fields, hfields⟩ : ∃ fields, Forall₂ (Value.HasType types) fields c.fields := by
      choose f hf using Value.exists_hasType hinhabited
      exact ⟨c.fields.map f, by simp [forall₂_map_left_iff, forall₂_same, hf]⟩
    obtain ⟨v, hv, hhead⟩ := Value.exists_of_mem_variants hc hfields
    obtain ⟨p, hp, hpname, hsub⟩ := Pattern.exists_of_mem_variants hc
      (forall₂_replicate (a := Pattern.wildcard .synthetic) (fun _ => .wildcard) rfl)
    refine ⟨p, hp, ?_, v, hv, ?_, fun q qs hrow hmatch => ?_⟩
    · refine writtenAs_render_case (hc'.name ▸ hpname) ?_
      rw [hsub]
      refine forall₂_iff_get.mpr ⟨by simpa using hlength, fun i _ _ => ?_⟩
      simpa [Witness.render] using .wildcard
    · rw [Pattern.matches_iff_of_head hp hv hpname hhead, hsub]
      exact forall₂_replicate (fun _ => .wildcard) hfields.length_eq.symm
    · refine (hmatch.head hhead).resolve_right fun hq => hname ?_
      exact mem_heads.mpr ⟨q, qs, hrow, hc'.name ▸ hq⟩

private theorem exists_append_of_forall₂ {α β : Type} {R : α → β → Prop} {as : List α}
    {bs bs' : List β} (h : Forall₂ R as (bs ++ bs')) :
    ∃ as₁ as₂, as = as₁ ++ as₂ ∧ Forall₂ R as₁ bs ∧ Forall₂ R as₂ bs' :=
  ⟨_, _, (take_append_drop _ _).symm, forall₂_take_append _ _ _ h,
    forall₂_drop_append _ _ _ h⟩

theorem gather_append {c : Case} {ws' : List Witness} (h : ws.length = c.fields.length) :
    gather c (ws ++ ws') = .case c.name ws :: ws' := by
  rw [gather, ← h, take_left, drop_left]

/-- Every missing row of patterns matches a row of values that is not covered. -/
theorem exists_not_covered_of_mem_missing (hnames : types.UniqueNames)
    (hinhabited : types.Inhabited)
    (hts : Forall₂ Ty.Outlines ts columns) (hrows : Suited types rows ts)
    (hliterals : LiteralsLeft rows.flatten) (hws : ws ∈ missing types rows columns) :
    ∃ ps, Forall₂ (Pattern.Suits types) ps ts ∧
      Forall₂ (fun p w => p.WrittenAs w.render) ps ws ∧
        ∃ vs, Forall₂ (Value.HasType types) vs ts ∧ Forall₂ Pattern.Matches ps vs ∧
          ¬ Covers rows vs := by
  induction rows, columns using missing.induct types generalizing ts ws with
  | case1 rows hempty =>
    obtain rfl := forall₂_nil_right_iff.mp hts
    obtain rfl : ws = [] := by simpa [missing, hempty] using hws
    refine ⟨[], .nil, .nil, [], .nil, .nil, ?_⟩
    rintro ⟨row, hrow, -⟩
    simp_all
  | case2 rows hne => simp [missing, hne] at hws
  | case3 rows u columns hcomplete ih =>
    obtain ⟨t, ts, ht, hrest, rfl⟩ := forall₂_cons_right_iff.mp hts
    obtain ⟨c', hmem, sub, hsub, rfl⟩ := (mem_missing_of_isComplete hcomplete).mp hws
    obtain ⟨c, hc, hc'⟩ := exists_variant_standsFor ht
      (hrows.variants_ne_nil (heads_ne_nil_of_isComplete hcomplete)) hmem
    obtain ⟨ps, hps, htexts, vs, hvs, hmatch, hnot⟩ := ih c' hmem
      (rel_append hc'.fields hrest) (hrows.specialize hnames hc hc')
      (literalsLeft_specialize hliterals c') hsub
    -- the patterns and values for the fields become a pattern and a value for the constructor
    obtain ⟨args, ps, rfl, hargs, hpsRest⟩ := exists_append_of_forall₂ hps
    obtain ⟨fields, vs, rfl, hfields, hvsRest⟩ := exists_append_of_forall₂ hvs
    obtain ⟨texts, sub, rfl, hargTexts, htextsRest⟩ := exists_append_of_forall₂ htexts.flip
    rw [forall₂_append_iff (hargs.length_eq.trans hfields.length_eq.symm)] at hmatch
    obtain ⟨p, hp, hpname, rfl⟩ := Pattern.exists_of_mem_variants hc hargs
    obtain ⟨v, hv, hhead⟩ := Value.exists_of_mem_variants hc hfields
    rw [gather_append (hargTexts.length_eq.trans (hargs.length_eq.trans hc'.fields.length_eq))]
    refine ⟨p :: ps, .cons hp hpsRest, .cons ?_ htextsRest.flip, v :: vs, .cons hv hvsRest,
      .cons ?_ hmatch.2, fun hcovers => hnot ?_⟩
    · exact writtenAs_render_case (hc'.name ▸ hpname) hargTexts.flip
    · exact (Pattern.matches_iff_of_head hp hv hpname hhead).mpr hmatch.1
    · exact (covers_specialize_iff hnames hrows hc hc' hv hhead hfields).mpr hcovers
  | case4 rows u columns hincomplete ih =>
    obtain ⟨t, ts, ht, hrest, rfl⟩ := forall₂_cons_right_iff.mp hts
    obtain ⟨w, hw, sub, hsub, rfl⟩ := (mem_missing_of_not_isComplete hincomplete).mp hws
    obtain ⟨ps, hps, htexts, vs, hvs, hmatch, hnot⟩ :=
      ih hrest hrows.defaults (literalsLeft_defaults hliterals) hsub
    obtain ⟨p, hp, htext, v, hv, hpv, hcatch⟩ :=
      exists_value_of_mem_missingHeads hinhabited hrows hliterals ht hw
    exact ⟨p :: ps, .cons hp hps, .cons htext htexts, v :: vs, .cons hv hvs, .cons hpv hmatch,
      fun hcovers => hnot (covers_defaults_of_covers hcovers hcatch)⟩

/-! ## The arms of a choice -/

theorem suited_arms (h : ∀ p ∈ arms, p.Suits types t) : Suited types (arms.map ([·])) [t] := by
  intro row hrow
  obtain ⟨p, hp, rfl⟩ := mem_map.mp hrow
  exact .cons (h p hp) .nil

theorem covers_arms : Covers (arms.map ([·])) [v] ↔ ∃ p ∈ arms, p.Matches v := by
  simp [Covers]

theorem ne_nil_of_mem_missing (h : ws ∈ missing types rows (u :: columns)) : ws ≠ [] := by
  by_cases hcomplete : isComplete (casesOf types u) (heads rows) = true
  · obtain ⟨c, -, sub, -, rfl⟩ := (mem_missing_of_isComplete hcomplete).mp h
    exact cons_ne_nil _ _
  · obtain ⟨w, -, sub, -, rfl⟩ := (mem_missing_of_not_isComplete hcomplete).mp h
    exact cons_ne_nil _ _

theorem missingPatterns_eq_nil (h : missingPatterns types t arms = []) :
    missing types (arms.map ([·])) [t] = [] := by
  rw [missingPatterns, filterMap_eq_nil_iff] at h
  refine eq_nil_iff_forall_not_mem.mpr fun ws hws => ne_nil_of_mem_missing hws ?_
  exact head?_eq_none_iff.mp (h ws hws)

/-- A pattern that is left out matches a value that no arm matches. -/
theorem exists_value_of_mem_missingPatterns (hnames : types.UniqueNames)
    (hinhabited : types.Inhabited)
    (harms : ∀ p ∈ arms, p.Suits types t) (hliterals : LiteralsLeft arms)
    (hw : w ∈ missingPatterns types t arms) :
    ∃ p : Pattern, p.Suits types t ∧ p.WrittenAs w.render ∧
      ∃ v : Value, v.HasType types t ∧ p.Matches v ∧ ∀ q ∈ arms, ¬ q.Matches v := by
  obtain ⟨ws, hws, hhead⟩ := mem_filterMap.mp hw
  have hflatten : (arms.map ([·])).flatten = arms := by
    rw [← flatMap_def, flatMap_singleton']
  obtain ⟨ps, hps, htexts, vs, hvs, hmatch, hnot⟩ :=
    exists_not_covered_of_mem_missing hnames hinhabited (.cons (.refl t) .nil) (suited_arms harms)
      (hflatten.symm ▸ hliterals) hws
  obtain ⟨p, ps, hp, hnil, rfl⟩ := forall₂_cons_right_iff.mp hps
  obtain ⟨v, vs, hv, hnil', rfl⟩ := forall₂_cons_right_iff.mp hvs
  obtain rfl := forall₂_nil_right_iff.mp hnil'
  obtain ⟨w', ws, htext, -, rfl⟩ := forall₂_cons_left_iff.mp htexts
  obtain rfl : w' = w := Option.some.inj hhead
  refine ⟨p, hp, htext, v, hv, (forall₂_cons.mp hmatch).1, fun q hq hqv => hnot ?_⟩
  exact covers_arms.mpr ⟨q, hq, hqv⟩

/-! ## Main results -/

/-- If the arms of a choice leave no pattern out, then every value is matched by one of them. -/
theorem exhaustive_of_missingPatterns_eq_nil (hnames : types.UniqueNames) {arms : List Pattern}
    (harms : ∀ p ∈ arms, p.Suits types t) (h : missingPatterns types t arms = []) {v : Value}
    (hv : v.HasType types t) : ∃ p ∈ arms, p.Matches v := by
  have hcovers := covers_of_missing_eq_nil hnames (missingPatterns_eq_nil h) (.cons (.refl t) .nil)
    (suited_arms harms) (.cons hv .nil)
  exact covers_arms.mp hcovers

/-- Every text that is reported as missing is a pattern for the type that matches a value which no
arm matches, so there is no warning if every value is matched. -/
theorem missingPatterns_genuine (reg : Registry) (hnames : reg.dataTypes.UniqueNames)
    (hinhabited : reg.dataTypes.Inhabited) {arms : List Pattern}
    (harms : ∀ p ∈ arms, p.Suits reg.dataTypes t) (hliterals : LiteralsLeft arms) :
    (∀ text ∈ (missingPatterns reg.dataTypes t arms).map Witness.render,
      ∃ p : Pattern, p.Suits reg.dataTypes t ∧ p.WrittenAs text ∧
        ∃ v : Value, v.HasType reg.dataTypes t ∧ p.Matches v ∧ ∀ q ∈ arms, ¬ q.Matches v) ∧
    ((∀ v : Value, v.HasType reg.dataTypes t → ∃ p ∈ arms, p.Matches v) →
      missingPatterns reg.dataTypes t arms = [] ∧
        ∀ (s : Subst) (binding : String) (choice : PendingCases), s.apply choice.scrutinee = t →
          choice.patterns = arms → choice.warning? reg s binding = none) := by
  have hgenuine {w : Witness} (hw : w ∈ missingPatterns reg.dataTypes t arms) :=
    exists_value_of_mem_missingPatterns hnames hinhabited harms hliterals hw
  refine ⟨fun text htext => ?_, fun hall => ?_⟩
  · obtain ⟨w, hw, rfl⟩ := mem_map.mp htext
    exact hgenuine hw
  · have hnil : missingPatterns reg.dataTypes t arms = [] := by
      refine eq_nil_iff_forall_not_mem.mpr fun w hw => ?_
      obtain ⟨-, -, -, v, hv, -, hnot⟩ := hgenuine hw
      obtain ⟨q, hq, hmatch⟩ := hall v hv
      exact hnot q hq hmatch
    refine ⟨hnil, fun s binding choice hscrutinee hpatterns => ?_⟩
    rw [PendingCases.warning?, hscrutinee, hpatterns, hnil]

/-! ### Patterns for perfect trees -/

private def leafCase : Constructor where
  name := "Leaf"
  fields := []

private def nodeCase : Constructor where
  name := "Node"
  fields := [.var ⟨0⟩, .named "Tree" [.tuple [.var ⟨0⟩, .var ⟨0⟩]]]

/-- Perfect trees, a type that is recursive at other arguments:
`Tree a = Leaf | Node a (Tree (a, a))`. -/
private def perfectTree : DataType where
  name := "Tree"
  params := [(⟨0⟩, "a")]
  constructors := [leafCase, nodeCase]

private def trees : DataTypes := DataTypes.insert {} perfectTree

private theorem eq_of_trees_get? {d : DataType} (h : trees.get? name = some d) :
    name = "Tree" ∧ d = perfectTree := by
  have hlookup : (if name = "Tree" then some perfectTree else none) = some d := h
  split at hlookup
  · exact ⟨‹_›, (Option.some.inj hlookup).symm⟩
  · cases hlookup

private theorem uniqueNames_trees : trees.UniqueNames := by
  intro n n' d d' c c' hd hc hd' hc' hname
  obtain ⟨rfl, rfl⟩ := eq_of_trees_get? hd
  obtain ⟨rfl, rfl⟩ := eq_of_trees_get? hd'
  refine ⟨rfl, ?_⟩
  rcases mem_pair.mp hc with rfl | rfl <;> rcases mem_pair.mp hc' with rfl | rfl
  · rfl
  · exact absurd hname (by decide)
  · exact absurd hname (by decide)
  · rfl

private theorem inhabited_trees : trees.Inhabited := by
  intro name d hd args
  obtain ⟨rfl, rfl⟩ := eq_of_trees_get? hd
  exact ⟨.case "Leaf" [], .case (c := leafCase) rfl (.head _) .nil⟩

private def any : Pattern := .wildcard .synthetic

private def literal (value : Literal) : Pattern := .lit .synthetic value

private def pair (p q : Pattern) : Pattern := .tuple .synthetic [p, q]

private def leaf : Pattern := .constructor .synthetic "Leaf" []

private def node (p q : Pattern) : Pattern := .constructor .synthetic "Node" [p, q]

private theorem suits_pair {q : Pattern} (hp : p.Suits types t) (hq : q.Suits types u) :
    (pair p q).Suits types (.tuple [t, u]) :=
  .tuple (.cons hp (.cons hq .nil))

private theorem suits_leaf : leaf.Suits trees (.named "Tree" [t]) :=
  .constructor (d := perfectTree) (c := leafCase) rfl (.head _) .nil

private theorem suits_node {q : Pattern} (hp : p.Suits trees t)
    (hq : q.Suits trees (.named "Tree" [.tuple [t, t]])) :
    (node p q).Suits trees (.named "Tree" [t]) :=
  .constructor (d := perfectTree) (c := nodeCase) rfl (by decide) (.cons hp (.cons hq .nil))

private theorem hasType_leaf : (Value.case "Leaf" []).HasType trees (.named "Tree" [t]) :=
  .case (d := perfectTree) (c := leafCase) rfl (.head _) .nil

private theorem hasType_node {w : Value} (hv : v.HasType trees t)
    (hw : w.HasType trees (.named "Tree" [.tuple [t, t]])) :
    (Value.case "Node" [v, w]).HasType trees (.named "Tree" [t]) :=
  .case (d := perfectTree) (c := nodeCase) rfl (by decide) (.cons hv (.cons hw .nil))

private def boolArms : List Pattern :=
  [leaf, node (literal (.bool true)) any, node any leaf,
    node (literal (.bool false)) (node (pair (literal (.bool true)) any) any),
    node any (node (pair (.var .synthetic "x") (literal (.bool false))) leaf),
    node any (node (pair (literal (.bool false)) any) (node any any)),
    node any (node (pair any (literal (.bool true))) leaf)]

/-- Nested patterns, a variable and overlapping arms match the tree `Node False (Node (False, True)
Leaf)` together with all other trees of truth values. -/
theorem exhaustive_of_missingPatterns_eq_nil_trees :
    missingPatterns trees (.named "Tree" [.prim .bool]) boolArms = [] ∧
      ∃ p ∈ boolArms, p.Matches (.case "Node" [.lit (.bool false),
        .case "Node" [.tuple [.lit (.bool false), .lit (.bool true)], .case "Leaf" []]]) := by
  have hmissing : missingPatterns trees (.named "Tree" [.prim .bool]) boolArms = [] := by cbv
  refine ⟨hmissing, exhaustive_of_missingPatterns_eq_nil uniqueNames_trees ?_ hmissing ?_⟩
  · simp only [boolArms, forall_mem_cons]
    exact ⟨suits_leaf, suits_node .lit .wildcard, suits_node .wildcard suits_leaf,
      suits_node .lit (suits_node (suits_pair .lit .wildcard) .wildcard),
      suits_node .wildcard (suits_node (suits_pair .var .lit) suits_leaf),
      suits_node .wildcard (suits_node (suits_pair .lit .wildcard)
        (suits_node .wildcard .wildcard)),
      suits_node .wildcard (suits_node (suits_pair .wildcard .lit) suits_leaf),
      forall_mem_nil _⟩
  · exact hasType_node .lit (hasType_node (.tuple (.cons .lit (.cons .lit .nil))) hasType_leaf)

private def intArms : List Pattern :=
  [pair leaf (literal (.bool true)), pair (node (literal (.int 0)) any) any,
    pair (node any (node (pair any (literal (.int 1))) leaf)) (.var .synthetic "b")]

/-- Two patterns are reported, and there are values that they match and the arms do not. -/
theorem missingPatterns_genuine_trees :
    (missingPatterns trees (.tuple [.named "Tree" [.prim .int], .prim .bool]) intArms).map
        Witness.render = ["(Leaf, False)", "(Node _ Leaf, _)"] ∧
      ∀ text ∈ ["(Leaf, False)", "(Node _ Leaf, _)"],
        ∃ p : Pattern, p.Suits trees (.tuple [.named "Tree" [.prim .int], .prim .bool]) ∧
          p.WrittenAs text ∧
            ∃ v : Value, v.HasType trees (.tuple [.named "Tree" [.prim .int], .prim .bool]) ∧
              p.Matches v ∧ ∀ q ∈ intArms, ¬ q.Matches v := by
  have hmissing : (missingPatterns trees (.tuple [.named "Tree" [.prim .int], .prim .bool])
      intArms).map Witness.render = ["(Leaf, False)", "(Node _ Leaf, _)"] := by cbv
  have harms : ∀ p ∈ intArms, p.Suits trees (.tuple [.named "Tree" [.prim .int], .prim .bool]) := by
    simp only [intArms, forall_mem_cons]
    exact ⟨suits_pair suits_leaf .lit, suits_pair (suits_node .lit .wildcard) .wildcard,
      suits_pair (suits_node .wildcard (suits_node (suits_pair .wildcard .lit) suits_leaf)) .var,
      forall_mem_nil _⟩
  have hliterals : LiteralsLeft intArms := by
    simp only [LiteralsLeft, forall_mem_cons]
    refine ⟨⟨.int 2, rfl, ?_⟩, ⟨.float 0, rfl, ?_⟩, ⟨.string "", rfl, ?_⟩, forall_mem_nil _⟩ <;>
      simp [intArms, pair, node, leaf, literal, any]
  refine ⟨hmissing, ?_⟩
  rw [← hmissing]
  exact (missingPatterns_genuine { dataTypes := trees } uniqueNames_trees inhabited_trees harms
    hliterals).1

end Coverage

end RowTyping
