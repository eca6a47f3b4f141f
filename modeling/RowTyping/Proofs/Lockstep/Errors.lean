import RowTyping.Infer.Error
import RowTyping.Proofs.Lockstep.Matching
import RowTyping.Proofs.Naming

/-!
# Messages about matching types

Messages write types with canonical names, which follow the order in which variables occur and not
their ids. So errors about matching types read the same (`Matching.Errors.toDiagnostic_eq`).
-/

namespace RowTyping

open List

namespace Matching

variable {ρ : Matching} {t t' : Ty} {r r' : Row}

/-- Matching variables that are named. -/
abbrev Named (ρ : Matching) (xs : List Var) (names names' : VarNames) : Prop :=
  ∀ x ∈ xs, ∀ ⦃x'⦄, ρ.Vars x x' → names.nameOf x = names'.nameOf x'

theorem named_canonical {xs xs' : List Var} (h : Forall₂ ρ.Vars xs xs') :
    ρ.Named xs (.canonical xs) (.canonical xs') := by
  intro x hx x' hxx'
  have hx' : x' ∈ xs' := (rel_mem ρ.biUnique_vars hxx' h).mp hx
  have hidx := idxOf_eq_of_forall₂ ρ.biUnique_vars (forall₂_distinct ρ.biUnique_vars h) hxx'
  simp only [VarNames.nameOf, VarNames.get?_canonical hx, VarNames.get?_canonical hx', hidx,
    Option.getD_some]

/-! ## Writing types -/

theorem Types.isAtomic_eq (h : ρ.Types t t') : t.isAtomic = t'.isAtomic := by
  cases h with
  | named _ hargs => cases hargs <;> rfl
  | _ => rfl

theorem Types.isFn_eq (h : ρ.Types t t') : t.isFn = t'.isFn := by
  cases h <;> rfl

theorem Rows.render_eq {names names' : VarNames} (h : ρ.Rows r r')
    (hnames : ρ.Named (r.tail.toList.map .effect) names names') :
    r.render names = r'.render names' := by
  cases h with
  | closed => rfl
  | extended labels he =>
    have hname := hnames _ (by simp) (.effect he)
    simp [Row.render, Row.isPure, hname]

mutual

/-- Matching types are written alike, if matching variables have the same names. -/
theorem Types.render_eq {names names' : VarNames} {t t' : Ty} :
    ρ.Types t t' → ρ.Named t.occurrences names names' → t.render names = t'.render names'
  | .prim _, _ => by simp only [Ty.render]
  | .var hv, hnames => by
    rw [Ty.render, Ty.render]
    exact hnames _ (.head _) (.type hv)
  | .named _ hargs, hnames => by
    rw [Ty.render, Ty.render, types_render_eq (fun h => by rw [h.isAtomic_eq]) hargs hnames]
  | .app hhead hargs, hnames => by
    rw [Ty.render, Ty.render, hhead.isAtomic_eq,
      hhead.render_eq fun x hx => hnames x (mem_append_left _ hx),
      types_render_eq (fun h => by rw [h.isAtomic_eq]) hargs
        fun x hx => hnames x (mem_append_right _ hx)]
  | .fn hparams hresult heffects, hnames => by
    simp only [Matching.Named, Ty.occurrences, Option.toList_map, forall_mem_append] at hnames
    rw [Ty.render, Ty.render, isEmpty_eq_of_forall₂ hparams, hresult.isFn_eq,
      hresult.render_eq hnames.1.2,
      types_render_eq Types.isFn_eq hparams hnames.1.1, heffects.render_eq hnames.2]
  | .tuple helems, hnames => by rw [Ty.render, Ty.render,
      types_render_eq (fun _ => rfl) helems hnames]

theorem types_render_eq {names names' : VarNames} {wrap : Ty → Bool}
    (hwrap : ∀ {t t'}, ρ.Types t t' → wrap t = wrap t')
    {ts ts' : List Ty} : Forall₂ ρ.Types ts ts' → ρ.Named (Ty.occurrencesAll ts) names names' →
      Ty.renderAll names wrap ts = Ty.renderAll names' wrap ts'
  | .nil, _ => by simp only [Ty.renderAll]
  | .cons ht hts, hnames => by
    rw [Ty.renderAll, Ty.renderAll, hwrap ht,
      ht.render_eq fun x hx => hnames x (mem_append_left _ hx),
      types_render_eq hwrap hts fun x hx => hnames x (mem_append_right _ hx)]

end

theorem Types.renderPair_eq {u u' : Ty} (ht : ρ.Types t t') (hu : ρ.Types u u') :
    t.renderPair u = t'.renderPair u' := by
  have hnames := named_canonical (rel_append ht.occurrences hu.occurrences)
  simp only [Ty.renderPair,
    ht.render_eq fun x hx => hnames x (mem_append_left _ hx),
    hu.render_eq fun x hx => hnames x (mem_append_right _ hx)]

theorem Types.renderCanonical_eq (h : ρ.Types t t') : t.renderCanonical = t'.renderCanonical :=
  h.render_eq (named_canonical h.occurrences)

theorem Rows.renderPair_eq {q q' : Row} (hr : ρ.Rows r r') (hq : ρ.Rows q q') :
    r.renderPair q = r'.renderPair q' := by
  have htails {r r' : Row} (h : ρ.Rows r r') :
      Forall₂ ρ.Vars (r.tail.toList.map .effect) (r'.tail.toList.map .effect) := by
    cases h with
    | closed => exact .nil
    | extended _ he => exact .cons (.effect he) .nil
  have hnames := named_canonical (rel_append (htails hr) (htails hq))
  simp only [Row.renderPair, map_append,
    hr.render_eq fun x hx => hnames x (mem_append_left _ hx),
    hq.render_eq fun x hx => hnames x (mem_append_right _ hx)]

/-! ## Errors -/

variable (ρ) in
/-- The same conflict about matching types, rows and variables. -/
inductive Conflicts : UnifyError → UnifyError → Prop
  | mismatch {t t' u u' : Ty} (ht : ρ.Types t t') (hu : ρ.Types u u') :
    Conflicts (.mismatch t u) (.mismatch t' u')
  | rowMismatch {r r' q q' : Row} (hr : ρ.Rows r r') (hq : ρ.Rows q q') :
    Conflicts (.rowMismatch r q) (.rowMismatch r' q')
  | occurs {v v' : TypeVar} {t t' : Ty} (hv : ρ.types v v') (ht : ρ.Types t t') :
    Conflicts (.occurs v t) (.occurs v' t')

theorem Conflicts.message_eq {e e' : UnifyError} (h : ρ.Conflicts e e') :
    e.message = e'.message := by
  cases h with
  | mismatch ht hu => simp only [UnifyError.message, ht.renderPair_eq hu]
  | rowMismatch hr hq => simp only [UnifyError.message, hr.renderPair_eq hq]
  | occurs hv ht =>
    simp only [UnifyError.message, (Types.var hv).renderCanonical_eq, ht.renderCanonical_eq]

variable (ρ) in
/-- The same error, about matching types and rows. -/
inductive Errors : TypingError → TypingError → Prop
  | same (e : TypingError) : Errors e e
  | mismatch {t t' u u' : Ty} (ht : ρ.Types t t') (hu : ρ.Types u u') (reason : Reason)
    (detail : Option String) (span : Span) :
    Errors (.mismatch t u reason detail span) (.mismatch t' u' reason detail span)
  | rowMismatch {r r' q q' : Row} (hr : ρ.Rows r r') (hq : ρ.Rows q q') (reason : Reason)
    (span : Span) : Errors (.rowMismatch r q reason span) (.rowMismatch r' q' reason span)
  | occurs {v v' : TypeVar} {t t' : Ty} (hv : ρ.types v v') (ht : ρ.Types t t') (span : Span) :
    Errors (.occurs v t span) (.occurs v' t' span)
  | unresolvedTrait (traitName : String) {t t' : Ty} (ht : ρ.Types t t') (span : Span) :
    Errors (.unresolvedTrait traitName t span) (.unresolvedTrait traitName t' span)
  | armMismatch {t t' u u' : Ty} (ht : ρ.Types t t') (hu : ρ.Types u u') (first other : Span) :
    Errors (.armMismatch t u first other) (.armMismatch t' u' first other)
  | ambiguousTrait (traitName : String) {t t' : Ty} (ht : ρ.Types t t') (span : Span) :
    Errors (.ambiguousTrait traitName t span) (.ambiguousTrait traitName t' span)

theorem mismatchMessage_eq {u u' : Ty} (ht : ρ.Types t t') (hu : ρ.Types u u') (reason : Reason) :
    TypingError.mismatchMessage t u reason = TypingError.mismatchMessage t' u' reason := by
  unfold TypingError.mismatchMessage
  rw [ht.renderPair_eq hu]

theorem rowMismatchMessage_eq {q q' : Row} (hr : ρ.Rows r r') (hq : ρ.Rows q q') (reason : Reason) :
    TypingError.rowMismatchMessage r q reason = TypingError.rowMismatchMessage r' q' reason := by
  unfold TypingError.rowMismatchMessage
  rw [hr.renderPair_eq hq]

theorem Errors.message_eq {e e' : TypingError} (h : ρ.Errors e e') : e.message = e'.message := by
  cases h with
  | same => rfl
  | mismatch ht hu reason => exact mismatchMessage_eq ht hu reason
  | rowMismatch hr hq reason => exact rowMismatchMessage_eq hr hq reason
  | @occurs v v' t t' hv ht span =>
    change (fun p : String × String => s!"infinite type: `{p.1}` would have to equal `{p.2}`")
      ((Ty.var v).renderPair t) = _
    rw [(Types.var hv).renderPair_eq ht]
    rfl
  | @unresolvedTrait traitName t t' ht span =>
    change s!"no implementation of `{traitName}` for `{t.renderCanonical}`" = _
    rw [ht.renderCanonical_eq]
    rfl
  | @armMismatch t t' u u' ht hu =>
    change (fun p : String × String => s!"match arms have different types: `{p.1}` vs `{p.2}`")
      (t.renderPair u) = _
    rw [ht.renderPair_eq hu]
    rfl
  | @ambiguousTrait traitName t t' ht span =>
    change s!"ambiguous `{traitName}` requirement on `{t.renderCanonical}`: " ++
      "the type is not determined by the signature" = _
    rw [ht.renderCanonical_eq]
    rfl

/-- Errors about matching types are reported alike. -/
theorem Errors.toDiagnostic_eq {e e' : TypingError} (h : ρ.Errors e e') (binding : String) :
    e.toDiagnostic binding = e'.toDiagnostic binding := by
  have hrest : e.category = e'.category ∧ e.span = e'.span ∧ e.notes = e'.notes ∧
      e.help = e'.help := by
    cases h with
    | same | rowMismatch | occurs | unresolvedTrait | ambiguousTrait => exact ⟨rfl, rfl, rfl, rfl⟩
    | mismatch _ _ _ detail => cases detail <;> exact ⟨rfl, rfl, rfl, rfl⟩
    | armMismatch ht hu =>
      refine ⟨rfl, rfl, ?_, ?_⟩
      · unfold TypingError.notes
        dsimp only
        rw [ht.renderPair_eq hu]
      · unfold TypingError.help
        dsimp only
        rw [ht.renderPair_eq hu]
  obtain ⟨hcategory, hspan, hnotes, hhelp⟩ := hrest
  unfold TypingError.toDiagnostic
  rw [h.message_eq, hcategory, hspan, hnotes, hhelp]

end Matching

end RowTyping
