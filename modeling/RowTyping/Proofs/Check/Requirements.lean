import Mathlib
import RowTyping.Proofs.Check.Outcomes

/-!
# Requirements of signatures

Requirements reach a report by three ways: declared with a definition, declared with an operation of
a trait, or left over from the obligations of inferred definitions. On each way they are on types
with a variable at the head and are grouped last, after everything that could make two of them equal
(`Scheme.GivensNormal`). Those that are left over mention no type variables but those of the type.
-/

namespace RowTyping

open List

/-! ## Grouping -/

theorem nodup_groupByTrait (givens : List Given) : (groupByTrait givens).Nodup := by
  rw [groupByTrait_eq]
  refine nodup_flatMap.mpr ⟨fun name _ => (nodup_distinct givens).filter _, ?_⟩
  refine (nodup_distinct _).imp fun {name name'} hne g hg hg' => hne ?_
  -- a requirement of two groups would be of both traits
  have htrait := of_decide_eq_true (mem_filter.mp hg).2
  have htrait' := of_decide_eq_true (mem_filter.mp hg').2
  exact htrait.symm.trans htrait'

/-- The requirements of one trait stand together. -/
theorem filter_isInfix_groupByTrait (givens : List Given) (name : String) :
    (groupByTrait givens).filter (·.traitName = name) <:+: groupByTrait givens := by
  have hothers {names : List String} (hname : name ∉ names) :
      (names.flatMap fun n => (distinct givens).filter (·.traitName = n)).filter
        (·.traitName = name) = [] := by
    refine filter_eq_nil_iff.mpr fun g hg htrait => hname ?_
    obtain ⟨n, hn, hg⟩ := mem_flatMap.mp hg
    rwa [← of_decide_eq_true htrait, of_decide_eq_true (mem_filter.mp hg).2]
  rw [groupByTrait_eq]
  by_cases hname : name ∈ distinct (givens.map (·.traitName))
  · -- the group of the trait, with the groups of other traits around it
    obtain ⟨before, after, hsplit⟩ := append_of_mem hname
    have hnodup := nodup_distinct (givens.map (·.traitName))
    rw [hsplit, nodup_append, nodup_cons] at hnodup
    have hbefore : name ∉ before := fun h => hnodup.2.2 name h name (.head _) rfl
    simp only [hsplit, flatMap_append, flatMap_cons, filter_append, hothers hbefore,
      hothers hnodup.2.1.1, filter_filter, Bool.and_self, nil_append, append_nil]
    exact ⟨_, _, append_assoc _ _ _⟩
  · rw [hothers hname]
    exact nil_infix

/-- The requirements are on types with a variable at the head, each once, those of one trait
together. -/
structure Given.NormalForm (givens : List Given) : Prop where
  headed : ∀ g ∈ givens, g.type.headVar?.isSome = true
  nodup : givens.Nodup
  grouped : ∀ name, givens.filter (·.traitName = name) <:+: givens

theorem normalForm_groupByTrait {givens : List Given}
    (h : ∀ g ∈ givens, g.type.headVar?.isSome = true) : Given.NormalForm (groupByTrait givens) where
  headed g hg := h g (mem_groupByTrait.mp hg)
  nodup := nodup_groupByTrait givens
  grouped := filter_isInfix_groupByTrait givens

variable {σ : Scheme} {t : Ty} {deferred residual : List Obligation} {hints : VarNames} {s : Subst}

/-- Declared requirements are on variables. -/
theorem Scheme.Written.normalForm {reg : Registry} {P : Region} {w : TypeExpr} {scope : TypeScope}
    {givens : List Given} (h : Scheme.Written reg P w scope givens σ) :
    Given.NormalForm σ.givens := by
  rw [h.eq]
  refine normalForm_groupByTrait fun g hg => ?_
  obtain ⟨v, hv, -⟩ := h.onVars g hg
  rw [hv]
  rfl

/-! ## Heads -/

theorem Ty.headVar?_applyTo (head : Ty) (args : List Ty) :
    (head.applyTo args).headVar? = head.headVar? := by
  rcases args with _ | ⟨a, as⟩
  · rfl
  · cases head <;> rfl

/-- Replacing variables puts what the variable at the head stands for in its place. -/
theorem Ty.headVar?_under {v : TypeVar} (h : t.headVar? = some v) (V : Valuation) :
    (t.under V).headVar? = (V.types v).headVar? := by
  induction t with
  | var w =>
    rw [Ty.under_var, Option.some.inj h]
  | app head args ih =>
    rw [Ty.under_app, headVar?_applyTo]
    exact ih h
  | prim | named | fn | tuple => cases h

theorem Generalize.headVar?_closing (tails : List EffectVar) (h : t.headVar?.isSome = true) :
    ((closing tails).apply t).headVar?.isSome = true := by
  obtain ⟨v, hv⟩ := Option.isSome_iff_exists.mp h
  rw [Subst.apply_eq_under, Ty.headVar?_under hv, Subst.types_of_unbound (types_closing tails v)]
  rfl

/-! ## Inferred definitions -/

/-- The type variables of requirements occur in the type. -/
def Ty.Determines (t : Ty) (givens : List Given) : Prop :=
  ∀ g ∈ givens, ∀ v, .type v ∈ g.type.occurrences → .type v ∈ t.occurrences

theorem determines_of_generalize (h : generalize t residual s {} hints = .ok (σ, deferred)) :
    σ.type.Determines σ.givens := by
  intro g hg v hv
  have hquantified := (mem_quantified_of_generalize_type h hg hv).resolve_right
    (FixedVars.not_has_empty _)
  exact ((mem_quantified_of_generalize h _).mp hquantified).1

theorem generalize_groups {fixed : FixedVars}
    (h : generalize t residual s fixed hints = .ok (σ, deferred)) :
    ∃ givens, σ.givens = groupByTrait givens := by
  simp only [generalize] at h
  split at h
  · cases h
  · injection h with h
    obtain ⟨rfl, -⟩ := Prod.mk.inj h
    exact ⟨_, rfl⟩

/-- Requirements that come from obligations with a variable at the head are in normal form. The
heads are looked at under the substitution, which is applied before and after solving. -/
theorem normalForm_of_generalize {fixed : FixedVars}
    (h : generalize t residual s fixed hints = .ok (σ, deferred)) (hs : s.Acyclic)
    (hresidual : ∀ ob ∈ residual, ob.type.headVar?.isSome = true ∧ ∃ u, ob.type = s.apply u) :
    Given.NormalForm σ.givens := by
  obtain ⟨givens, hgivens⟩ := generalize_groups h
  obtain ⟨tails, -, -, hrequired, -⟩ := generalize_spec h
  rw [hgivens]
  refine normalForm_groupByTrait fun g hg => ?_
  obtain ⟨ob, hob, -, rfl⟩ := (hrequired g).mp (hgivens ▸ mem_groupByTrait.mpr hg)
  obtain ⟨hhead, u, hu⟩ := hresidual ob hob
  have happlied : s.apply ob.type = ob.type := by
    rw [hu, Subst.apply_eq_under, Subst.apply_eq_under, ← Ty.under_andThen,
      (Subst.Extends.refl s).andThen_eq hs hs]
  refine Generalize.headVar?_closing tails ?_
  rwa [happlied]

namespace Component

variable {reg : Registry} {st : InferState} {residual : List (List Obligation)}

theorem mem_of_mem_relevant {k : Nat} {t : Ty} {ob : Obligation} (h : ob ∈ relevant residual k t) :
    ∃ obs ∈ residual, ob ∈ obs := by
  rcases mem_append.mp h with h | h
  · rw [getD_eq_getElem?_getD] at h
    rcases hk : residual[k]? with _ | obs
    · rw [hk] at h
      cases h
    · rw [hk] at h
      exact ⟨obs, mem_of_getElem? hk, h⟩
  · obtain ⟨obs, hobs, hob⟩ := mem_flatten.mp (mem_filter.mp h).1
    exact ⟨obs, mem_of_mem_eraseIdx hobs, hob⟩

/-- The members of a component share what solving left, and each keeps what its own type
expresses. -/
theorem givens_generalizeAll {ms : List Member} {schemes : List (String × Scheme × Span)}
    (hs : st.subst.Acyclic) (hresidual : ∀ obs ∈ residual, ∀ ob ∈ obs,
      ob.type.headVar?.isSome = true ∧ ∃ u, ob.type = st.subst.apply u)
    (h : generalizeAll st residual ms = .ok schemes) :
    ∀ entry ∈ schemes, Given.NormalForm entry.2.1.givens ∧
    entry.2.1.type.Determines entry.2.1.givens := by
  intro entry hentry
  obtain ⟨m, -, j, deferred, hgen⟩ := of_mem_generalizeAll h entry hentry
  refine ⟨normalForm_of_generalize hgen hs fun ob hob => ?_, determines_of_generalize hgen⟩
  obtain ⟨obs, hobs, hob⟩ := mem_of_mem_relevant hob
  exact hresidual obs hobs ob hob

theorem givens_conclude {events : BindingEvents} {ms : List Member} {o : Outcome}
    (hs : st.subst.Acyclic) (h : conclude reg st events ms = .ok o) :
    ∀ entry ∈ o.schemes, Given.NormalForm entry.2.1.givens ∧
    entry.2.1.type.Determines entry.2.1.givens := by
  obtain ⟨solved, hsolved, hschemes⟩ := conclude_ok h
  refine givens_generalizeAll hs (fun obs hobs kept hkept => ?_) hschemes
  obtain ⟨one, hone, rfl⟩ := mem_map.mp hobs
  obtain ⟨m, -, hsolve⟩ := of_mem_forall₂ (solveAll_ok hsolved) one hone
  obtain ⟨ob, -, hresidual, rfl⟩ := (Traits.solve_origin hsolve).2 kept hkept
  exact ⟨hresidual, ob.type, rfl⟩

theorem givens_infer {c : Checker} {pool : Pool} (hpool : pool.Spaced) (hc : c.Valid pool.ready)
    (ds : List Definition) : ∀ entry ∈ (infer c.registry c.env pool ds).1.schemes,
      Given.NormalForm entry.2.1.givens ∧ entry.2.1.type.Determines entry.2.1.givens := by
  rcases infer_cases c.registry c.env pool ds with
    ⟨members, st₁, ms, st, label, hbind, hbodies, hconclude⟩ | ⟨hschemes, -⟩
  · have hstart := (hc.wellFormed (Fresh.pooled_ready hpool).distinct).toValid
    obtain ⟨hst, -, hts⟩ := bindMembers_ok hstart hbind
    exact givens_conclude (inferBodies_ok hst hts hbodies).valid.subst.acyclic hconclude
  · rw [hschemes]
    exact forall_mem_nil _

end Component

/-! ## Reports -/

/-- The requirements of a signature are in normal form and, if its name is one of the inferred ones,
determined by its type. -/
structure Signature.Normal (inferred : List String) (sig : Signature) : Prop where
  givens : Given.NormalForm sig.givens
  determined : sig.name ∈ inferred → sig.type.Determines sig.givens

namespace Checker

variable {m : Module} {ds : List Definition} {c : Checker}

/-- A global name is not the name of a definition that is to be inferred. -/
theorem Recorded.not_mem_namesOf (h : c.Recorded m ds) {name : String}
    (hname : c.env.hasGlobal name = true) : name ∉ namesOf c.inferred := by
  intro hmem
  obtain ⟨d, hd, rfl⟩ := mem_map.mp hmem
  rw [(h.inferred d hd).2.2] at hname
  cases hname

theorem normal_of_mem_check (m : Module) (trace : Bool) :
    ∀ sig ∈ (m.check trace).signatures, sig.Normal (namesOf (declareModule {} m).inferred) := by
  intro sig hsig
  obtain ⟨name, σ, span, rfl, ⟨hname, _, _, _, _, hσ⟩ | ⟨r, hr, hentry⟩⟩ :=
    m.mem_signatures_check hsig
  · have hnot := (recorded_declareModule m).not_mem_namesOf hname
    exact ⟨hσ.normalForm, fun hinferred => (hnot hinferred).elim⟩
  · obtain ⟨hnormal, hdetermined⟩ := Component.givens_infer hr.spaced hr.valid _ _ hentry
    exact ⟨hnormal, fun _ => hdetermined⟩

end Checker

/-- Requirements of reported signatures are in normal form: each has a type variable at its head, no
two are equal and those of one trait stand together. All type variables of the requirements of an
inferred definition occur in its type. -/
theorem Module.reported_givens_normal (m : Module) (trace : Bool) :
    ∀ sig ∈ (m.check trace).signatures,
      (∀ g ∈ sig.givens, g.type.headVar?.isSome = true) ∧ sig.givens.Nodup ∧
      (∀ name, sig.givens.filter (·.traitName = name) <:+: sig.givens) ∧
      ∀ d ∈ (Checker.declareModule {} m).inferred, d.name.node = sig.name →
        ∀ g ∈ sig.givens, ∀ v, .type v ∈ g.type.occurrences → .type v ∈ sig.type.occurrences := by
  intro sig hsig
  have hnormal := Checker.normal_of_mem_check m trace sig hsig
  refine ⟨hnormal.givens.headed, hnormal.givens.nodup, hnormal.givens.grouped, fun d hd hname => ?_⟩
  exact hnormal.determined (hname ▸ mem_namesOf hd)

/-- The trait with one operation of the given written type. -/
private def traitWith (name operation : String) (type : TypeExpr) : Spanned Declaration :=
  Declaration.trait {
      name := name
      param := "a"
      methods := [{ name := operation, type := ⟨type, .synthetic⟩ }] }

/-- A call of a name. -/
private def callOfName (name : String) (args : List Expr) : Expr :=
  .call .synthetic (.var .synthetic name) args

/-- A module with the function `f x y = (show x, same y y, show y)`. -/
private def tripleModule : Module where
  declarations := [
    traitWith "Show" "show" (.function [.named "a"] (.named "String") .pure),
    traitWith "Same" "same" (.function [.named "a", .named "a"] (.named "Bool") .pure),
    Declaration.definition {
        name := "f"
        params := [.var .synthetic "x", .var .synthetic "y"]
        body := .tuple .synthetic [
          callOfName "show" [.var .synthetic "x"],
          callOfName "same" [.var .synthetic "y", .var .synthetic "y"],
          callOfName "show" [.var .synthetic "y"]] }]

set_option maxRecDepth 100000 in
private theorem signature_tripleModule :
    ((tripleModule.check false).signature? "f").map (fun sig => (sig.name, sig.givens)) =
      some ("f", [⟨"Show", .var ⟨1025⟩⟩, ⟨"Show", .var ⟨1026⟩⟩, ⟨"Same", .var ⟨1026⟩⟩]) := by cbv

private theorem inferred_tripleModule :
    namesOf (Checker.declareModule {} tripleModule).inferred = ["f"] := by decide +kernel

/-- The two requirements on `Show` stand together, though `Same` is used between them, and the type
of `f` mentions both variables. -/
theorem Module.reported_givens_normal_triple :
    ∃ sig ∈ (tripleModule.check false).signatures,
      sig.givens = [⟨"Show", .var ⟨1025⟩⟩, ⟨"Show", .var ⟨1026⟩⟩, ⟨"Same", .var ⟨1026⟩⟩] ∧
      sig.givens.Nodup ∧ (∀ name, sig.givens.filter (·.traitName = name) <:+: sig.givens) ∧
      ∀ g ∈ sig.givens, g.type.headVar?.isSome = true ∧
        ∀ v, .type v ∈ g.type.occurrences → .type v ∈ sig.type.occurrences := by
  obtain ⟨sig, hfind, heq⟩ := Option.map_eq_some_iff.mp signature_tripleModule
  obtain ⟨hname, hgivens⟩ := Prod.mk.inj heq
  have hsig : sig ∈ (tripleModule.check false).signatures := mem_of_find?_eq_some hfind
  have hf : "f" ∈ namesOf (Checker.declareModule {} tripleModule).inferred := by
    rw [inferred_tripleModule]
    exact mem_singleton_self _
  obtain ⟨d, hd, hdname⟩ := mem_map.mp hf
  obtain ⟨hheaded, hnodup, hgrouped, hdetermined⟩ :=
    reported_givens_normal tripleModule false sig hsig
  exact ⟨sig, hsig, hgivens, hnodup, hgrouped, fun g hg =>
    ⟨hheaded g hg, hdetermined d hd (hdname.trans hname.symm) g hg⟩⟩

end RowTyping
