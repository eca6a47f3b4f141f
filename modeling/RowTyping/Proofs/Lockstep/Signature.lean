import Mathlib.Logic.Embedding.Basic
import RowTyping.Proofs.Lockstep.Errors
import RowTyping.Proofs.Lockstep.Generalize

/-!
# Texts do not tell ids

Canonical names follow the order in which variables are written, and the names of a signature follow
the order of its quantifiers. Ids take part in neither, except that quantified variables which
nothing else mentions are listed by their ids. So relabelling the variables of two types or rows
does not change how they are written, and relabelling a closed scheme in a way that keeps the order
of its quantified variables does not change its signature (`Relabelling.same_texts`).
-/

namespace RowTyping

open List

theorem Sorted.ofList_map {α β : Type} [Ord α] [Std.LawfulEqOrd α] [Std.TransOrd α] [Ord β]
    [Std.LawfulEqOrd β] [Std.TransOrd β] {f : α → β} {as : List α}
    (hf : ∀ a ∈ as, ∀ b ∈ as, compare a b = .lt → compare (f a) (f b) = .lt) :
    ofList (as.map f) = (ofList as).map f := by
  refine (isSorted_ofList _).eq_of_mem_iff ?_ fun b => by simp [mem_ofList]
  refine pairwise_map.mpr ((isSorted_ofList as).imp_of_mem fun ha hb => ?_)
  exact hf _ (mem_ofList.mp ha) _ (mem_ofList.mp hb)

/-! ## Signatures of matching schemes -/

namespace Matching

variable {ρ : Matching} {σ σ' : Scheme} {x x' : Var} {names names' : VarNames}

theorem Vars.isEffect_eq (h : ρ.Vars x x') : x.isEffect = x'.isEffect := by
  cases h <;> rfl

theorem Vars.contains_eq (h : ρ.Vars x x') {xs xs' : List Var} (hxs : Forall₂ ρ.Vars xs xs') :
    xs.contains x = xs'.contains x' := by
  rw [contains_eq_mem, contains_eq_mem, decide_eq_decide]
  exact rel_mem ρ.biUnique_vars h hxs

theorem Schemes.quantifiers (h : ρ.Schemes σ σ')
    (hquantified : Forall₂ ρ.Vars σ.quantified σ'.quantified) :
    Forall₂ ρ.Vars σ.quantifiers σ'.quantifiers := by
  have hrequired : Forall₂ ρ.Vars (σ.givens.flatMap (·.type.vars))
      (σ'.givens.flatMap (·.type.vars)) :=
    rel_flatMap h.givens fun _ _ hg => hg.type.vars
  have hothers := rel_append h.type.vars hquantified
  refine forall₂_distinct ρ.biUnique_vars (forall₂_filter ?_ fun hx => hx.contains_eq hquantified)
  exact rel_append (rel_append hrequired (forall₂_filter hothers fun hx => hx.isEffect_eq)) hothers

theorem Schemes.namedVars (h : ρ.Schemes σ σ')
    (hquantified : Forall₂ ρ.Vars σ.quantified σ'.quantified) :
    Forall₂ ρ.Vars σ.namedVars σ'.namedVars :=
  forall₂_distinct ρ.biUnique_vars (rel_append h.type.vars (h.quantifiers hquantified))

/-- Matching variables have the same name, or none. -/
def Agree (ρ : Matching) (names names' : VarNames) : Prop :=
  ∀ ⦃x x'⦄, ρ.Vars x x' → names.get? x = names'.get? x'

theorem Names.agree (h : ρ.Names names names') : ρ.Agree names names' := by
  have heq {o o' : Option String} (hrel : Option.Rel Eq o o') : o = o' := by
    cases hrel with
    | some h => exact congrArg some h
    | none => rfl
  intro x x' hx
  cases hx with
  | type hv => exact heq (h.types.get? ρ.biUnique_types hv)
  | effect he => exact heq (h.effects.get? ρ.biUnique_effects he)

theorem Agree.insert (h : ρ.Agree names names') (hx : ρ.Vars x x') (name : String) :
    ρ.Agree (names.insert x name) (names'.insert x' name) := by
  intro y y' hy
  rw [VarNames.get?_insert, VarNames.get?_insert, h hy]
  simp only [hy.eq_iff hx]

/-- Names that agree are the same for variables that have one. -/
theorem Agree.named (h : ρ.Agree names names') {xs : List Var}
    (hxs : ∀ x ∈ xs, ∃ name, names.get? x = some name) : ρ.Named xs names names' := by
  intro x hx x' hxx'
  obtain ⟨name, hname⟩ := hxs x hx
  simp [VarNames.nameOf, ← h hxx', hname]

theorem agree_assignNames {kept kept' : Var → Option String}
    (hkept : ∀ ⦃x x'⦄, ρ.Vars x x' → kept x = kept' x') {xs xs' : List Var}
    (hxs : Forall₂ ρ.Vars xs xs') (used : List String) (next : Nat) (h : ρ.Agree names names') :
    ρ.Agree (Signature.assignNames kept used xs next names)
      (Signature.assignNames kept' used xs' next names') := by
  induction hxs generalizing next names names' with
  | nil => exact h
  | cons hx _ ih =>
    simp only [Signature.assignNames, hkept hx]
    split <;> exact ih _ (h.insert hx _)

/-- Names are chosen alike for matching variables. -/
theorem Agree.chooseNames {hints hints' : VarNames} (h : ρ.Agree hints hints')
    {order order' : List Var} (horder : Forall₂ ρ.Vars order order') :
    ρ.Agree (Signature.chooseNames order hints) (Signature.chooseNames order' hints') := by
  have hkept ⦃x x' : Var⦄ (hx : ρ.Vars x x') :
      Signature.keptName? order hints x = Signature.keptName? order' hints' x' := by
    rw [Signature.keptName?, Signature.keptName?, h hx, filterMap_eq_of_forall₂ horder h]
  rw [Signature.chooseNames, Signature.chooseNames, filterMap_eq_of_forall₂ horder hkept]
  exact agree_assignNames hkept horder _ _ fun _ _ hx => by cases hx <;> rfl

theorem Givens.render_eq {g g' : Given} (h : ρ.Givens g g')
    (hnames : ρ.Named g.type.occurrences names names') :
    g.render names = g'.render names' := by
  simp only [Given.render, Ty.renderOperand, h.traitName, h.type.isAtomic_eq,
    h.type.render_eq hnames]

end Matching

/-- All variables of the type and of the requirements are quantified. -/
structure Scheme.Closed (σ : Scheme) : Prop where
  type : ∀ x ∈ σ.type.occurrences, σ.Quantifies x
  givens : ∀ g ∈ σ.givens, ∀ x ∈ g.type.occurrences, σ.Quantifies x

/-- Closed schemes that match have the same signature, if their quantified variables match in
order. -/
theorem Matching.Schemes.render_eq {ρ : Matching} {σ σ' : Scheme} (h : ρ.Schemes σ σ')
    (hclosed : σ.Closed)
    (hquantified : Forall₂ ρ.Vars σ.quantified σ'.quantified) (name : String) (span : Span) :
    (Signature.ofScheme name σ span).render = (Signature.ofScheme name σ' span).render := by
  have hquantifiers := h.quantifiers hquantified
  have hagree := h.names.agree.chooseNames (h.namedVars hquantified)
  have hnamed {xs : List Var} (hxs : ∀ x ∈ xs, σ.Quantifies x) :
      ρ.Named xs (Signature.chooseNames σ.namedVars σ.names)
        (Signature.chooseNames σ'.namedVars σ'.names) := by
    refine hagree.named fun x hx => Signature.exists_get?_chooseNames (nodup_distinct _) ?_
    exact Scheme.mem_namedVars.mpr
      (.inr (Scheme.mem_quantifiers.mpr (Scheme.mem_quantified.mpr (hxs x hx))))
  have hvars := map_eq_of_forall₂ hquantifiers
    (hnamed fun x hx => Scheme.mem_quantified.mp (Scheme.mem_quantifiers.mp hx))
  have hgivens := map_eq_of_forall₂ h.givens fun g hg g' hgg' => hgg'.render_eq
    (hnamed (hclosed.givens g hg))
  unfold Signature.render Signature.ofScheme
  dsimp only
  rw [h.type.render_eq (hnamed hclosed.type), hvars, hgivens, isEmpty_eq_of_forall₂ hquantifiers,
    isEmpty_eq_of_forall₂ h.givens]

/-! ## Relabelled types and schemes -/

/-- New variables, different ones for different ones. -/
structure Relabelling where
  /-- The new type variable. -/
  types : TypeVar ↪ TypeVar
  /-- The new effect variable. -/
  effects : EffectVar ↪ EffectVar

/-- The row with its tail relabelled. -/
def Row.relabel (f : Relabelling) (r : Row) : Row :=
  { r with tail := r.tail.map f.effects }

namespace Ty

mutual

/-- The type with all its variables relabelled. -/
def relabel (f : Relabelling) : Ty → Ty
  | .prim p => .prim p
  | .var v => .var (f.types v)
  | .named name args => .named name (relabelAll f args)
  | .app head args => .app (relabel f head) (relabelAll f args)
  | .fn params result effects => .fn (relabelAll f params) (relabel f result) (effects.relabel f)
  | .tuple elems => .tuple (relabelAll f elems)

/-- The types with all their variables relabelled. -/
def relabelAll (f : Relabelling) : List Ty → List Ty
  | [] => []
  | t :: ts => relabel f t :: relabelAll f ts

end

end Ty

/-- The scheme with its quantifiers, requirements, declared names and type relabelled. -/
def Scheme.relabel (f : Relabelling) (σ : Scheme) : Scheme where
  typeVars := σ.typeVars.map f.types
  effectVars := σ.effectVars.map f.effects
  givens := σ.givens.map fun g => { g with type := g.type.relabel f }
  names.types.entries := σ.names.types.entries.map fun entry => (f.types entry.1, entry.2)
  names.effects.entries := σ.names.effects.entries.map fun entry => (f.effects entry.1, entry.2)
  type := σ.type.relabel f

namespace Relabelling

variable (f : Relabelling)

/-- A variable matches its new one. -/
def matching : Matching where
  types v v' := f.types v = v'
  effects e e' := f.effects e = e'
  biUnique_types := ⟨fun _ _ _ h h' => f.types.injective (h.trans h'.symm),
    fun _ _ _ h h' => h.symm.trans h'⟩
  biUnique_effects :=
    ⟨fun _ _ _ h h' => f.effects.injective (h.trans h'.symm), fun _ _ _ h h' => h.symm.trans h'⟩

theorem rows_relabel (r : Row) : f.matching.Rows r (r.relabel f) := by
  obtain ⟨labels, _ | e⟩ := r
  · exact .closed labels
  · exact .extended labels rfl

theorem types_relabel (t : Ty) : f.matching.Types t (t.relabel f) := by
  have hall {ts : List Ty} (ih : ∀ t ∈ ts, f.matching.Types t (t.relabel f)) :
      Forall₂ f.matching.Types ts (Ty.relabelAll f ts) := by
    induction ts with
    | nil => exact .nil
    | cons t ts ihs =>
      exact .cons (ih t (.head _)) (ihs fun u hu => ih u (.tail _ hu))
  induction t with
  | prim p => exact .prim p
  | var v => exact .var rfl
  | named name args ih => exact .named name (hall ih)
  | app head args ihHead ihArgs => exact .app ihHead (hall ihArgs)
  | fn params result effects ihParams ihResult =>
    exact .fn (hall ihParams) ihResult (f.rows_relabel effects)
  | tuple elems ih => exact .tuple (hall ih)

theorem schemes_relabel (σ : Scheme) : f.matching.Schemes σ (σ.relabel f) where
  typeVars := forall₂_map_right_iff.mpr (forall₂_same.mpr fun _ _ => rfl)
  effectVars := forall₂_map_right_iff.mpr (forall₂_same.mpr fun _ _ => rfl)
  givens := forall₂_map_right_iff.mpr (forall₂_same.mpr fun g _ => ⟨rfl, f.types_relabel g.type⟩)
  names := ⟨forall₂_map_right_iff.mpr (forall₂_same.mpr fun _ _ => ⟨rfl, rfl⟩),
    forall₂_map_right_iff.mpr (forall₂_same.mpr fun _ _ => ⟨rfl, rfl⟩)⟩
  type := f.types_relabel σ.type

/-- The ids of quantified variables of one kind keep their order. -/
structure KeepsOrder (σ : Scheme) : Prop where
  types : ∀ v ∈ σ.typeVars, ∀ w ∈ σ.typeVars, v.id < w.id → (f.types v).id < (f.types w).id
  effects : ∀ e ∈ σ.effectVars, ∀ g ∈ σ.effectVars, e.id < g.id →
    (f.effects e).id < (f.effects g).id

variable {f}

theorem KeepsOrder.quantified {σ : Scheme} (h : f.KeepsOrder σ) :
    Forall₂ f.matching.Vars σ.quantified (σ.relabel f).quantified := by
  have htypes : Sorted.ofList (σ.typeVars.map f.types) = (Sorted.ofList σ.typeVars).map f.types :=
    Sorted.ofList_map fun v hv w hw hlt => Nat.compare_eq_lt.mpr
      (h.types v hv w hw (Nat.compare_eq_lt.mp hlt))
  have heffects : Sorted.ofList (σ.effectVars.map f.effects) =
      (Sorted.ofList σ.effectVars).map f.effects :=
    Sorted.ofList_map fun e he g hg hlt =>
      Nat.compare_eq_lt.mpr (h.effects e he g hg (Nat.compare_eq_lt.mp hlt))
  simp only [Scheme.quantified, Scheme.relabel, htypes, heffects, map_map]
  refine rel_append ?_ ?_
  · rw [forall₂_map_left_iff, forall₂_map_right_iff]
    exact forall₂_same.mpr fun _ _ => .type rfl
  · rw [forall₂_map_left_iff, forall₂_map_right_iff]
    exact forall₂_same.mpr fun _ _ => .effect rfl

/-- Texts do not tell ids. Two types are written alike if their variables are relabelled, and so are
two rows. The signature of a closed scheme is the same text if its variables are relabelled in a way
that keeps the order of those that are quantified. -/
theorem same_texts (f : Relabelling) :
    (∀ a b : Ty, (a.relabel f).renderPair (b.relabel f) = a.renderPair b) ∧
    (∀ r q : Row, (r.relabel f).renderPair (q.relabel f) = r.renderPair q) ∧
    ∀ σ : Scheme, σ.Closed → f.KeepsOrder σ → ∀ name span,
      (Signature.ofScheme name (σ.relabel f) span).render =
        (Signature.ofScheme name σ span).render :=
  ⟨fun a b => ((f.types_relabel a).renderPair_eq (f.types_relabel b)).symm,
    fun r q => ((f.rows_relabel r).renderPair_eq (f.rows_relabel q)).symm,
    fun σ hclosed horder name span =>
      ((f.schemes_relabel σ).render_eq hclosed horder.quantified name span).symm⟩

/-- All ids are raised by the same amount. -/
def shift (n : Nat) : Relabelling where
  types := ⟨fun v => ⟨v.id + n⟩, fun v w h => by cases v; cases w; simpa using h⟩
  effects := ⟨fun e => ⟨e.id + n⟩, fun e g h => by cases e; cases g; simpa using h⟩

/-- Two variables claim the name `f`, and one is not used at all. -/
theorem same_texts_functor :
    let σ : Scheme :=
      { typeVars := [⟨1⟩, ⟨2⟩, ⟨3⟩], effectVars := [⟨0⟩], givens := [⟨"Functor", .var ⟨1⟩⟩]
        names := { types := .ofList [(⟨1⟩, "f"), (⟨2⟩, "f")] }
        type := .fn [.var ⟨2⟩] (.app (.var ⟨1⟩) [.var ⟨2⟩]) ⟨[], some ⟨0⟩⟩ }
    σ.Closed ∧ (shift 5).KeepsOrder σ ∧ σ.relabel (shift 5) ≠ σ ∧
      (Signature.ofScheme "wrap" (σ.relabel (shift 5)) default).render =
        (Signature.ofScheme "wrap" σ default).render := by
  intro σ
  have hclosed : σ.Closed := ⟨by decide, by decide⟩
  have horder : (shift 5).KeepsOrder σ := ⟨by decide, by decide⟩
  exact ⟨hclosed, horder, by decide, (same_texts (shift 5)).2.2 σ hclosed horder "wrap" default⟩

end Relabelling

end RowTyping
