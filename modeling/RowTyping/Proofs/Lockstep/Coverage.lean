import RowTyping.Coverage
import RowTyping.Proofs.Lockstep.Scope

/-!
# Coverage of matching types

Which patterns are missing depends on the constructors of a type and on their number of fields, not
on its variables. So choices on values of matching types lack the same patterns
(`Matching.Types.missingPatterns_eq`).
-/

namespace RowTyping

open List

open Coverage

namespace Matching

variable {ρ : Matching} {reg : Registry}

/-- The same constructor with fields of matching types. -/
structure Cases (ρ : Matching) (c c' : Case) : Prop where
  name : c.name = c'.name
  fields : Forall₂ ρ.Types c.fields c'.fields

private theorem substs_argumentSubst {d : DataType} (hd : ∀ v ∈ d.paramVars, ρ.types v v)
    {args args' : List Ty} (hargs : Forall₂ ρ.Types args args') :
    ρ.Substs (d.argumentSubst args) (d.argumentSubst args') ∧
      (d.argumentSubst args).SameSize (d.argumentSubst args') := by
  have hfold {vs : List TypeVar} (hvs : ∀ v ∈ vs, ρ.types v v) {s s' : Subst}
      (hs : ρ.Substs s s' ∧ s.SameSize s') :
      ρ.Substs ((vs.zip args).foldl (fun s entry => s.bindType entry.1 entry.2) s)
          ((vs.zip args').foldl (fun s entry => s.bindType entry.1 entry.2) s') ∧
        ((vs.zip args).foldl (fun s entry => s.bindType entry.1 entry.2) s).SameSize
          ((vs.zip args').foldl (fun s entry => s.bindType entry.1 entry.2) s') := by
    induction hargs generalizing vs s s' with
    | nil => simpa using hs
    | cons ht _ ih =>
      cases vs with
      | nil => exact hs
      | cons v vs =>
        have hv := hvs v (.head _)
        exact ih (fun w hw => hvs w (.tail _ hw))
          ⟨hs.1.bindType hv ht, hs.1.sameSize_bindType hs.2 hv _ _⟩
  exact hfold hd ⟨substs_empty, Subst.sameSize_empty⟩

/-- Matching types have the same constructors. -/
theorem Types.casesOf (hreg : ρ.Keeps reg) {t t' : Ty} (h : ρ.Types t t') :
    Forall₂ ρ.Cases (casesOf reg.dataTypes t) (casesOf reg.dataTypes t') := by
  cases h with
  | prim p =>
    cases p with
    | bool => exact .cons ⟨rfl, .nil⟩ (.cons ⟨rfl, .nil⟩ .nil)
    | unit => exact .cons ⟨rfl, .nil⟩ .nil
    | int | float | string => exact .nil
  | tuple helems => exact .cons ⟨rfl, helems⟩ .nil
  | named name hargs =>
    simp only [Coverage.casesOf]
    split
    · rename_i d hd
      obtain ⟨hsubsts, hsize⟩ := substs_argumentSubst (hreg.params hd) hargs
      have hvaluations := hsubsts.valuations_of_sameSize hsize
      rw [forall₂_map_left_iff, forall₂_map_right_iff]
      refine forall₂_same.mpr fun c hc => ⟨rfl, ?_⟩
      rw [DataType.fieldsAt, DataType.fieldsAt, forall₂_map_left_iff, forall₂_map_right_iff]
      exact forall₂_same.mpr fun t ht => (hreg.fields hd c hc t ht).under hvaluations
    · exact .nil
  | var | app | fn => exact .nil

theorem Cases.specialize_eq {c c' : Case} (h : ρ.Cases c c') (rows : List PatternRow) :
    specialize c rows = specialize c' rows := by
  have hrow (row : PatternRow) : specializeRow c row = specializeRow c' row := by
    cases row with
    | nil => rfl
    | cons p ps => simp only [specializeRow, h.name, h.fields.length_eq]
  simp only [specialize, hrow]

theorem Cases.gather_eq {c c' : Case} (h : ρ.Cases c c') : gather c = gather c' := by
  funext ws
  rw [gather, gather, h.name, h.fields.length_eq]

theorem missing_of_isComplete {types : DataTypes} {rows : List PatternRow} {t : Ty} {rest : List Ty}
    (h : isComplete (Coverage.casesOf types t) (heads rows)) :
    missing types rows (t :: rest) = (Coverage.casesOf types t).flatMap fun c =>
      (missing types (specialize c rows) (c.fields ++ rest)).map (gather c) := by
  rw [missing, dif_pos h]
  simp only [flatMap_subtype, unattach_attach]

theorem isComplete_eq {cases cases' : List Case} (h : Forall₂ ρ.Cases cases cases')
    (names : List String) : isComplete cases names = isComplete cases' names := by
  have hall : cases.all (names.contains ·.name) = cases'.all (names.contains ·.name) := by
    rw [all_eq_not_any_not, all_eq_not_any_not, any_eq_of_forall₂ h fun hc => by rw [hc.name]]
  rw [isComplete, isComplete, isEmpty_eq_of_forall₂ h, hall]

theorem missingHeads_eq {cases cases' : List Case} (h : Forall₂ ρ.Cases cases cases')
    (names : List String) : missingHeads cases names = missingHeads cases' names := by
  rw [missingHeads, missingHeads, isEmpty_eq_of_forall₂ h]
  split
  · rfl
  rw [← forall₂_eq_eq_eq, forall₂_map_left_iff, forall₂_map_right_iff]
  exact (forall₂_filter h fun hc => by rw [hc.name]).imp fun c c' hc => by
    rw [hc.name, hc.fields.length_eq]

/-- Columns of matching types lack the same rows. -/
theorem missing_eq (hreg : ρ.Keeps reg) (rows : List PatternRow) {columns columns' : List Ty}
    (h : Forall₂ ρ.Types columns columns') :
    missing reg.dataTypes rows columns = missing reg.dataTypes rows columns' := by
  induction rows, columns using missing.induct reg.dataTypes generalizing columns' with
  | case1 rows hempty | case2 rows hempty =>
    cases h
    rfl
  | case3 rows t rest hcomplete ih =>
    cases h with
    | cons ht hrest =>
      have hcases := ht.casesOf hreg
      rw [missing_of_isComplete hcomplete,
        missing_of_isComplete ((isComplete_eq hcases _).symm.trans hcomplete)]
      refine flatMap_eq_of_forall₂ hcases fun c hmem {c'} hc => ?_
      rw [ih c hmem (rel_append hc.fields hrest), hc.specialize_eq, hc.gather_eq]
  | case4 rows t rest hincomplete ih =>
    cases h with
    | cons ht hrest =>
      have hcases := ht.casesOf hreg
      rw [missing, dif_neg hincomplete, missing,
        dif_neg (mt (isComplete_eq hcases _).trans hincomplete), ih hrest, missingHeads_eq hcases]

theorem Types.missingPatterns_eq (hreg : ρ.Keeps reg) {t t' : Ty} (h : ρ.Types t t')
    (patterns : List Pattern) :
    missingPatterns reg.dataTypes t patterns = missingPatterns reg.dataTypes t' patterns := by
  rw [missingPatterns, missingPatterns, missing_eq hreg _ (.cons h .nil)]

end Matching

end RowTyping
