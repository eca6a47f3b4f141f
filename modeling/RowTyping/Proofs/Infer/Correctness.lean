import Mathlib
import RowTyping.Proofs.Infer.Principal

/-!
# Inference is correct

What inference finds can be derived with the typing rules (`inference_sound`), and a definition that
passes the check against its declared signature has every instance of the declared type
(`declared_signature_sound`). The scheme that is inferred without the signature has these instances,
too, as far as generalisation has closed no row in which the signature allows further effects
(`inferred_scheme_principal`).
-/

namespace RowTyping.Infer

/-- What inference finds for an expression can be derived under the final substitution, and
inference may go on from where it ends. -/
theorem inference_sound {reg : Registry} {st st' : InferState} {e : Expr} {r : Typed}
    (hst : st.WellFormed reg) (h : expr reg e st = .ok r st') :
    HasType reg (st.env.under st'.subst.valuation) e (st'.subst.apply r.type)
        (st'.subst.applyRow r.effects) ∧ st'.WellFormed reg := by
  have hrun := sound reg e hst.toValid h
  -- the derivation holds for whatever absorbs the final substitution, and it absorbs itself
  refine ⟨hrun.derives _ hst.apart _ hrun.runs.valid.acyclic.absorbs,
    hrun.runs.validState hst.toValid, ?_⟩
  exact (hrun.runs.apart hst.apart fun P henv _ => henv).separate

/-! ### A polymorphic local definition -/

private theorem usable_closed {σ : Scheme} {n : Nat} (hrows : ∀ r ∈ σ.type.rows, r.IsSorted)
    (hclosed : ∀ x ∈ σ.type.occurrences, x ∈ σ.quantified) (htypes : ∀ v ∈ σ.typeVars, v.id < n)
    (heffects : ∀ e ∈ σ.effectVars, e.id < n) :
    σ.Usable { supply := .standalone n n } ∧ ∀ x, ¬ σ.Free x := by
  have hquantified {x : Var} (hx : x ∈ σ.quantified) :
      ¬ (Fresh.mk (.standalone n n) {}).Upcoming x := by
    intro hup
    cases x with
    | type v =>
      exact Nat.not_lt_of_le (Fresh.upcoming_standalone_type.mp hup)
        (htypes v (Scheme.mem_quantified_type.mp hx))
    | effect e =>
      exact Nat.not_lt_of_le (Fresh.upcoming_standalone_effect.mp hup)
        (heffects e (Scheme.mem_quantified_effect.mp hx))
  exact ⟨⟨⟨hrows, fun x hx => hquantified (hclosed x hx)⟩, hquantified⟩,
    fun x hx => hx.2 (hclosed x hx.1)⟩

private theorem usable_global {name : String} {σ : Scheme} {f : Fresh} (hσ : σ.Usable f)
    (hclosed : ∀ x, ¬ σ.Free x) : Env.Usable { globals := ⟨[(name, σ)]⟩ } f where
  locals _ hτ := (List.not_mem_nil hτ).elim
  globals hτ := List.mem_singleton.mp (Dict.mem_values_of_get? hτ) ▸ hσ
  closed hτ := List.mem_singleton.mp (Dict.mem_values_of_get? hτ) ▸ hclosed

private theorem usable_empty (f : Fresh) : Env.Usable {} f where
  locals _ hτ := (List.not_mem_nil hτ).elim
  globals hτ := by cases hτ
  closed hτ := by cases hτ

private theorem usable_traits (ts : Traits) (f : Fresh) : Registry.Usable { traits := ts } f :=
  ⟨fun h => (nomatch h), fun h => (nomatch h), fun h => (nomatch h)⟩

/-- `print : String -> Unit` with the effect `io`. -/
private def printScheme : Scheme :=
  .mono (.fn [.prim .string] .unit (.closed ["io"]))

/-- `let id = fn x -> x in (id 1, (id print) "hi")`. -/
private def program : Expr :=
  .letIn .synthetic (.var .synthetic "id") none
    (.lambda .synthetic [.var .synthetic "x"] (.var .synthetic "x"))
    (.tuple .synthetic [.call .synthetic (.var .synthetic "id") [.lit .synthetic (.int 1)],
      .call .synthetic (.call .synthetic (.var .synthetic "id") [.var .synthetic "print"])
        [.lit .synthetic (.string "hi")]])

/-- What inference finds for an expression, under the final substitution. -/
private def inferred (reg : Registry) (e : Expr) : InferM (Ty × Row) := do
  let r ← expr reg e
  let s := (← get).subst
  return (s.apply r.type, s.applyRow r.effects)

/-- The local function is used at two types, and the effect of the second use is not lost. -/
theorem inference_sound_polymorphic_let :
    ∃ r st', expr {} program
        (.start { supply := .standalone 0 0 } { globals := ⟨[("print", printScheme)]⟩ }) =
          .ok r st' ∧
      HasType {} (Env.under { globals := ⟨[("print", printScheme)]⟩ } st'.subst.valuation) program
        (.tuple [.int, .unit]) (.extensible ["io"] ⟨7⟩) := by
  obtain ⟨hprint, hclosed⟩ := usable_closed (σ := printScheme) (n := 0)
    (by simpa [printScheme, Scheme.mono, Ty.rows, Ty.rowsAll, Ty.unit, Row.IsSorted, Row.closed]
      using Sorted.isSorted_ofList ["io"]) (by decide) (by decide) (by decide)
  have hst : (InferState.start { supply := .standalone 0 0 }
      { globals := ⟨[("print", printScheme)]⟩ }).WellFormed {} :=
    InferState.wellFormed_start (Fresh.distinct_standalone 0 0 {})
      (usable_global hprint hclosed) rfl (usable_traits {} _)
  -- only the type and the row are computed, the final state is never written down
  have hrun : (inferred {} program).run'
      (.start { supply := .standalone 0 0 } { globals := ⟨[("print", printScheme)]⟩ }) =
      some (.tuple [.int, .unit], .extensible ["io"] ⟨7⟩) := by cbv
  obtain ⟨st', hok⟩ := eq_ok_of_run' hrun
  simp only [inferred, bind_eq_ok, get_eq_ok, pure_eq_ok, Prod.mk.injEq] at hok
  obtain ⟨r, _, hexpr, _, _, ⟨rfl, rfl⟩, ⟨htype, heffects⟩, rfl⟩ := hok
  have hsound := (inference_sound hst hexpr).1
  rw [htype, heffects] at hsound
  exact ⟨r, _, hexpr, hsound⟩

/-- A definition that passes the check against a closed scheme has the declared type, whatever the
declared variables stand for, and every obligation left by the body is accounted for. -/
theorem declared_signature_sound {reg : Registry} {fresh : Fresh} {env : Env} {d : Definition}
    {σ : Scheme} {allowed : List Given} {resolved : List Resolution} {st' : InferState}
    (hfresh : fresh.Distinct) (henv : env.Usable fresh) (hlocals : env.locals = [])
    (hreg : reg.Usable fresh) (hσ : σ.Usable fresh) (hclosed : ∀ x, ¬ σ.Free x)
    (h : checkDeclared reg d σ allowed (.start fresh env) = .ok resolved st') :
    (∀ V : Valuation, d.HasType reg (env.under .self) (σ.type.under V)) ∧
      ∃ st₁, fitDeclared reg d σ.type (.start fresh env) = .ok () st₁ ∧ st₁.subst = st'.subst ∧
        ∀ ob ∈ st₁.obligations, ob.AccountedFor reg.traits st'.subst resolved allowed := by
  have hst := InferState.wellFormed_start hfresh henv hlocals hreg
  obtain ⟨st₁, hfit, hsubst, hrigid, haccounted⟩ := checkDeclared_ok h
  -- the declared variables have ended as different variables, so `V` can be chosen after the check
  refine ⟨fun V => ?_, st₁, hfit, hsubst.symm, hsubst ▸ haccounted⟩
  obtain ⟨U, hU⟩ := hasType_of_isRigid hst.toValid hst.apart hσ.type hclosed hfit hrigid V
  rwa [show (InferState.start fresh env).env = env from rfl, henv.under_eq hlocals U .self] at hU

/-! ### A definition with rigid variables and a requirement -/

/-- `show : a -> String given Show a`. -/
private def showScheme : Scheme where
  typeVars := [⟨2⟩]
  givens := [⟨"Show", .var ⟨2⟩⟩]
  type := .fn [.var ⟨2⟩] (.prim .string) .pure

/-- `Show` is implemented for integers. -/
private def showInt : Traits :=
  Traits.insertImpl {} { traitName := "Show", typeName := "Int", methods := ["show"] }

/-- `describe f x = (show (f x), show 1)`. -/
private def describe : Definition where
  name := "describe"
  params := [.var .synthetic "f", .var .synthetic "x"]
  body := .tuple .synthetic [
    .call .synthetic (.var .synthetic "show")
      [.call .synthetic (.var .synthetic "f") [.var .synthetic "x"]],
    .call .synthetic (.var .synthetic "show") [.lit .synthetic (.int 1)]]

/-- `(a -> b with e, a) -> (String, String) with e given Show b`. -/
private def describeScheme : Scheme where
  typeVars := [⟨0⟩, ⟨1⟩]
  effectVars := [⟨0⟩]
  givens := [⟨"Show", .var ⟨1⟩⟩]
  type := .fn [.fn [.var ⟨0⟩] (.var ⟨1⟩) (.ofVar ⟨0⟩), .var ⟨0⟩]
    (.tuple [.prim .string, .prim .string]) (.ofVar ⟨0⟩)

/-- One requirement is met by the implementation for integers, the other one by the declared one. -/
theorem declared_signature_sound_describe :
    ∃ st', checkDeclared { traits := showInt } describe describeScheme describeScheme.givens
        (.start { supply := .standalone 3 3 } { globals := ⟨[("show", showScheme)]⟩ }) =
          .ok [⟨"Show", "Int", ["show"], .synthetic⟩] st' ∧
      (∀ V, describe.HasType { traits := showInt }
        (Env.under { globals := ⟨[("show", showScheme)]⟩ } .self)
          (describeScheme.type.under V)) := by
  have hrun : (checkDeclared { traits := showInt } describe describeScheme
      describeScheme.givens).run'
        (.start { supply := .standalone 3 3 } { globals := ⟨[("show", showScheme)]⟩ }) =
      some [⟨"Show", "Int", ["show"], .synthetic⟩] := by cbv
  obtain ⟨st', hok⟩ := eq_ok_of_run' hrun
  obtain ⟨hshow, hshowClosed⟩ := usable_closed (σ := showScheme) (n := 3)
    (by simp [showScheme, Ty.rows, Ty.rowsAll, Row.IsSorted, Sorted.IsSorted, Row.pure]) (by decide)
    (by decide) (by decide)
  obtain ⟨hdescribe, hdescribeClosed⟩ := usable_closed (σ := describeScheme) (n := 3)
    (by simp [describeScheme, Ty.rows, Ty.rowsAll, Row.IsSorted, Sorted.IsSorted, Row.ofVar])
    (by decide) (by decide) (by decide)
  have hsound := declared_signature_sound (Fresh.distinct_standalone 3 3 {})
    (usable_global hshow hshowClosed) rfl (usable_traits showInt _) hdescribe hdescribeClosed hok
  exact ⟨st', hok, hsound.1⟩

/-- A definition that passes the check against a declared scheme has the declared type as an
instance of its inferred scheme, apart from effects of the function itself, exactly if the closed
rows of returned functions are the declared ones. The name can be used at the declared type itself
if use opens its row. -/
theorem inferred_scheme_principal {reg : Registry} {fresh : Fresh} {env : Env} {d : Definition}
    {σ S : Scheme} {allowed : List Given} {resolved : List Resolution} {st₁ st' : InferState}
    {r : Typed} {residual deferred : List Obligation} {hints : VarNames}
    (hfresh : fresh.Distinct) (henv : env.Usable fresh) (hlocals : env.locals = [])
    (hreg : reg.Usable fresh) (hσ : σ.Usable fresh) (hclosed : ∀ x, ¬ σ.Free x)
    (hcheck : checkDeclared reg d σ allowed (.start fresh env) = .ok resolved st')
    (hinfer : definition reg d (.start fresh env) = .ok r st₁)
    (hS : generalize r.type residual st₁.subst {} hints = .ok (S, deferred)) (V : Valuation) :
    ((∃ t, S.HasInstance .self t ∧ t.Narrows (σ.type.under V)) ↔
      (σ.type.under V).KeepsRows S.type) ∧
      ∀ closed, S.HasClosedRow closed → (S.isMono && S.givens.isEmpty) = false →
        (σ.type.under V).KeepsRows S.type → (S.under .self).uses (σ.type.under V) := by
  have hst := InferState.wellFormed_start hfresh henv hlocals hreg
  obtain ⟨st₂, hfit, -, hrigid, -⟩ := checkDeclared_ok hcheck
  obtain ⟨hruns, -, _, _, hdefinition, hnarrows⟩ := fitDeclared_ok hst.toValid hσ.type hfit
  cases hdefinition.symm.trans hinfer
  -- the declared variables have ended as different variables, so `V` can be chosen after the check
  obtain ⟨U, hU, htype⟩ :=
    exists_absorbs_of_isRigid hruns.valid.acyclic hσ.type.sorted hclosed hrigid V
  obtain ⟨habsorbs, hnarrows⟩ := hnarrows U hU
  rw [htype, ← Subst.under_apply habsorbs] at hnarrows
  have hiff : (∃ t, S.HasInstance .self t ∧ t.Narrows (σ.type.under V)) ↔
      (σ.type.under V).KeepsRows S.type :=
    ⟨fun ⟨_, ht, hnarrows'⟩ => ht.keepsRows hnarrows', hasInstance_of_generalize hS hnarrows⟩
  refine ⟨hiff, fun closed hrow hplain hkeeps => ?_⟩
  obtain ⟨t, ht, hnarrows'⟩ := hiff.mpr hkeeps
  rw [Scheme.under, if_neg (by simp [hplain])]
  exact .inr (hrow.opensTo ht hnarrows')

/-! ### Functions declared with more effects than they have -/

/-- `constant x = fn y -> x`. -/
private def constant : Definition where
  name := "constant"
  params := [.var .synthetic "x"]
  body := .lambda .synthetic [.var .synthetic "y"] (.var .synthetic "x")

/-- `a -> (b -> a)` with the rows of the returned function and of the function itself. -/
private def constantScheme (a b : Nat) (inner outer : Row) : Scheme where
  typeVars := [⟨a⟩, ⟨b⟩]
  type := .fn [.var ⟨a⟩] (.fn [.var ⟨b⟩] (.var ⟨a⟩) inner) outer

/-- The state after the variables of a declared scheme have been drawn. -/
private def beginning : InferState :=
  .start { supply := .standalone 2 2 } {}

/-- The scheme is inferred for `constant`. -/
private def IsInferred (S : Scheme) : Prop :=
  ∃ r st₁, definition {} constant beginning = .ok r st₁ ∧ generalize r.type [] st₁.subst {} {} =
    .ok (S, [])

private theorem isInferred_constantScheme : IsInferred (constantScheme 2 3 .pure .pure) := by
  have hrun :
      (do return generalize (← definition {} constant).type [] (← get).subst {} {} : InferM _).run'
        beginning = some (.ok (constantScheme 2 3 .pure .pure, [])) := by cbv
  obtain ⟨st₁, hok⟩ := eq_ok_of_run' hrun
  simp only [bind_eq_ok, get_eq_ok, pure_eq_ok] at hok
  obtain ⟨r, _, hinfer, _, _, ⟨rfl, rfl⟩, hS, rfl⟩ := hok
  exact ⟨r, _, hinfer, hS⟩

/-- The function itself may be declared with an effect, because use opens its row. -/
theorem inferred_scheme_principal_constant :
    IsInferred (constantScheme 2 3 .pure .pure) ∧
      (∃ st', checkDeclared {} constant (constantScheme 0 1 .pure (.closed ["io"])) [] beginning =
        .ok [] st') ∧
      ((constantScheme 2 3 .pure .pure).under .self).uses
        (constantScheme 0 1 .pure (.closed ["io"])).type := by
  obtain ⟨st', hcheck⟩ := eq_ok_of_run' (show (checkDeclared {} constant (constantScheme 0 1 .pure
    (.closed ["io"])) []).run' beginning = some [] by cbv)
  obtain ⟨r, st₁, hinfer, hS⟩ := isInferred_constantScheme
  obtain ⟨hσ, hclosed⟩ := usable_closed (σ := constantScheme 0 1 .pure (.closed ["io"])) (n := 2)
    (by simpa [constantScheme, Ty.rows, Ty.rowsAll, Row.IsSorted, Row.closed, Row.pure,
      Sorted.IsSorted] using Sorted.isSorted_ofList ["io"]) (by decide) (by decide) (by decide)
  have hprincipal := inferred_scheme_principal (Fresh.distinct_standalone 2 2 {})
    (usable_empty _) rfl (usable_traits {} _) hσ hclosed hcheck hinfer hS .self
  refine ⟨isInferred_constantScheme, ⟨st', hcheck⟩, hprincipal.2 .pure ⟨rfl, _, _, rfl⟩ rfl ?_⟩
  rintro (_ | n) r r' hr hr' -
  · exact Option.some.inj (hr.symm.trans hr')
  · cases hr

/-- The function that is returned may be declared with an effect, too, but no instance has this
effect. -/
theorem declared_effects_beyond_instances :
    IsInferred (constantScheme 2 3 .pure .pure) ∧
      (∃ st', checkDeclared {} constant (constantScheme 0 1 (.closed ["io"]) .pure) [] beginning =
        .ok [] st') ∧
      (do unify (← instantiate (constantScheme 2 3 .pure .pure) .synthetic)
            (constantScheme 0 1 (.closed ["io"]) .pure).type ⟨.synthetic, .declaredSignature⟩ :
          InferM Unit).run' (.start { supply := .standalone 4 4 } {}) = none :=
  ⟨isInferred_constantScheme, eq_ok_of_run' (show (checkDeclared {} constant
    (constantScheme 0 1 (.closed ["io"]) .pure) []).run' beginning = some [] by cbv), by cbv⟩

end RowTyping.Infer
