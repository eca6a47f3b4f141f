import RowTyping.Proofs.Infer.Stepwise
import RowTyping.Proofs.SortedList
import RowTyping.Proofs.Typing.Context

/-!
# Names in scope

Inference touches the environment only by giving types to names in the innermost scope, and it
closes every scope that it opens, also when it fails (`Stepwise.touches`). The free references of an
expression are exactly the names it looks up outside the patterns around them: they are bound if it
succeeds, one of them is unbound if it says so (`Stepwise.ends`), and no other global matters
(`Stepwise.commutes`).
-/

namespace RowTyping

open List

/-! ## Environments -/

namespace Env

variable {Γ Γ' Γ'' : Env} {names names' : List String}

/-- The type that the local scopes give to a name. -/
def local? (Γ : Env) (name : String) : Option Scheme :=
  Γ.scopes.findSome? (·.get? name)

/-- The environment with the same scopes and other globals. -/
def withGlobals (Γ : Env) (globals : Dict String Scheme) : Env :=
  { Γ with globals }

theorem get?_eq_or (Γ : Env) (name : String) :
    Γ.get? name = (Γ.local? name).or (Γ.globals.get? name) :=
  rfl

theorem get?_of_local {name : String} {σ : Scheme} (h : Γ.local? name = some σ) :
    Γ.get? name = some σ := by
  rw [get?_eq_or, h, Option.some_or]

theorem local?_bind (name name' : String) (σ : Scheme) :
    (Γ.bind name σ).local? name' = if name' = name then some σ else Γ.local? name' := by
  obtain ⟨globals, _ | ⟨scope, outer⟩⟩ := Γ <;>
    by_cases h : name' = name <;> simp [bind, local?, List.findSome?, h]

theorem local?_push (name : String) : Γ.push.local? name = Γ.local? name := by
  simp [push, local?, List.findSome?]

theorem withGlobals_bind (globals : Dict String Scheme) (name : String) (σ : Scheme) :
    (Γ.withGlobals globals).bind name σ = (Γ.bind name σ).withGlobals globals := by
  obtain ⟨_, _ | ⟨scope, outer⟩⟩ := Γ <;> rfl

/-- The second environment is the first one, apart from the innermost scope if there are names to
bind in it. -/
structure Touches (names : List String) (Γ Γ' : Env) : Prop where
  eq_of_nil : names = [] → Γ' = Γ
  isOpen : Γ.scopes ≠ [] → Γ'.scopes ≠ []
  pop : Γ.scopes ≠ [] → Γ'.pop = Γ.pop

namespace Touches

theorem refl : Touches names Γ Γ :=
  ⟨fun _ => rfl, id, fun _ => rfl⟩

theorem of_eq (h : Γ' = Γ) : Touches names Γ Γ' :=
  h ▸ refl

theorem trans (h : Touches names Γ Γ') (h' : Touches names' Γ' Γ'') :
    Touches (names ++ names') Γ Γ'' where
  eq_of_nil hnil := (h'.eq_of_nil (append_eq_nil_iff.mp hnil).2).trans
    (h.eq_of_nil (append_eq_nil_iff.mp hnil).1)
  isOpen hopen := h'.isOpen (h.isOpen hopen)
  pop hopen := (h'.pop (h.isOpen hopen)).trans (h.pop hopen)

/-- What a scope of its own leaves when it is closed. -/
theorem pop_push (h : Touches names Γ.push Γ') : Γ'.pop = Γ :=
  h.pop (cons_ne_nil _ _)

end Touches

theorem touches_bind (name : String) (σ : Scheme) : Touches [name] Γ (Γ.bind name σ) where
  eq_of_nil h := nomatch h
  isOpen h := (pop_bind h).2
  pop h := (pop_bind h).1

/-- The second environment is the first one with local types for the names. -/
structure Adds (names : List String) (Γ Γ' : Env) : Prop where
  globals : Γ'.globals = Γ.globals
  binds : ∀ name ∈ names, (Γ'.local? name).isSome
  others : ∀ name ∉ names, Γ'.local? name = Γ.local? name

namespace Adds

theorem refl : Adds [] Γ Γ :=
  ⟨rfl, nofun, fun _ _ => rfl⟩

theorem congr (h : Adds names Γ Γ') (hmem : ∀ name, name ∈ names' ↔ name ∈ names) :
    Adds names' Γ Γ' where
  globals := h.globals
  binds name hname := h.binds name ((hmem name).mp hname)
  others name hname := h.others name (mt (hmem name).mpr hname)

theorem bind (h : Adds names Γ Γ') (name : String) (σ : Scheme) :
    Adds (name :: names) Γ (Γ'.bind name σ) where
  globals := (globals_bind name σ).trans h.globals
  binds name' hname' := by
    rw [local?_bind]
    split
    · rfl
    · rename_i hne
      exact h.binds name' ((mem_cons.mp hname').resolve_left hne)
  others name' hname' := by
    obtain ⟨hne, hnotin⟩ := not_or.mp (mt mem_cons.mpr hname')
    rw [local?_bind, if_neg hne, h.others name' hnotin]

theorem push (h : Adds names Γ Γ') : Adds names Γ Γ'.push where
  globals := h.globals
  binds name hname := by
    rw [local?_push]
    exact h.binds name hname
  others name hname := by
    rw [local?_push]
    exact h.others name hname

theorem get?_eq (h : Adds names Γ Γ') {name : String} (hname : name ∉ names) :
    Γ'.get? name = Γ.get? name := by
  rw [get?_eq_or, get?_eq_or, h.others name hname, h.globals]

end Adds

end Env

/-- The state with the same scopes and other globals. -/
def InferState.withGlobals (st : InferState) (globals : Dict String Scheme) : InferState :=
  { st with env := st.env.withGlobals globals }

theorem InferState.withGlobals_note (st : InferState) (globals : Dict String Scheme)
    (event : InferEvent) :
    (st.withGlobals globals).note event = (st.note event).withGlobals globals := by
  change (if st.unifier.isTracing then _ else _) = _
  rw [note]
  split <;> rfl

namespace Infer

variable {α β : Type} {x : InferM α} {f : α → InferM β} {Γ : Env} {bound binds looks : List String}
  {n : String} {reg : Registry} {e : TypingError} {st : InferState}

/-! ## The environment that is left -/

theorem env_runUnify (step : Subst → UnifyM Subst) (explain : Subst → UnifyError → TypingError)
    (st : InferState) : (leftState (runUnify step explain st)).env = st.env := by
  rw [runUnify_eq]
  split <;> rfl

theorem env_resolve (reg : Registry) (written : Spanned TypeExpr) (st : InferState) :
    (leftState (resolve reg written st)).env = st.env := by
  rw [resolve_eq]
  split <;> rfl

/-- Inference touches the innermost scope only, whether it succeeds or fails, and not even that if
it binds no names. -/
theorem Stepwise.touches (h : Stepwise bound binds looks x) (st : InferState) :
    st.env.Touches binds (leftState (x st)).env := by
  induction h generalizing st with
  | pure | throw => exact .refl
  | @seq _ _ _ _ _ _ _ x f _ _ ih ihf =>
    have hx := ih st
    rcases hrun : x st with ⟨a, st₁⟩ | ⟨e, st₁⟩ <;> rw [hrun] at hx
    · rw [bind_of_ok hrun]
      exact hx.trans (ihf a st st₁ hrun st₁)
    · rw [bind_of_error hrun]
      exact hx.trans .refl
  | read _ _ ih => exact ih st st
  | @lookup _ _ f g name span hnone hsome _ ih =>
    change Env.Touches _ _ (leftState (f st st)).env
    rcases hget : st.env.get? name with _ | σ
    · rw [hnone st hget]
      exact .refl
    · rw [hsome st σ hget]
      exact ih σ st
  | @tryCatch _ _ x handle _ _ ih ihhandle =>
    have hx := ih st
    rcases hrun : x st with ⟨a, st₁⟩ | ⟨e, st₁⟩ <;> rw [hrun] at hx
    · rw [tryCatch_of_ok hrun]
      exact hx
    · rw [tryCatch_of_error hrun]
      by_cases he : handle e = MonadExcept.throw e
      · rw [he]
        exact hx
      · exact hx.trans (ihhandle e he st₁)
  | withScope _ ih =>
    rw [withScope_eq, leftState_viewed]
    exact .of_eq (ih { st with env := st.env.push }).pop_push
  | unify | unifyRows => exact .of_eq (env_runUnify _ _ st)
  | resolve reg written => exact .of_eq (env_resolve reg written st)
  | record => exact .of_eq (st.env_note _)
  | freshTypeVar | freshEffectVar | recordCases | constrain | defer | takeObligations => exact .refl
  | bindName name σ => exact Env.touches_bind name σ

theorem Stepwise.env_eq (h : Stepwise bound [] looks x) (st : InferState) :
    (leftState (x st)).env = st.env :=
  (h.touches st).eq_of_nil rfl

/-! ## The names that are looked up -/

/-- The error says of one of the names, which has no type in the environment, that it is unbound, or
it does not say so of any name. -/
def Blames (looks : List String) (Γ : Env) (e : TypingError) : Prop :=
  e.SpeaksPlainly ∨ ∃ name ∈ looks, Γ.get? name = none ∧ ∃ span, e = .unboundVariable name span

theorem Blames.mono {looks' : List String} (h : Blames looks Γ e)
    (hsub : ∀ name ∈ looks, name ∈ looks') :
    Blames looks' Γ e :=
  h.imp_right fun ⟨name, hname, hnone⟩ => ⟨name, hsub name hname, hnone⟩

/-- A step that keeps the environment and whose errors are not about variables. -/
theorem ends_plain (hst : Γ.Adds bound st.env) (henv : (leftState (x st)).env = st.env)
    (hplain : ∀ {e st'}, x st = .error e st' → e.SpeaksPlainly) :
    Ends x st (fun _ st' => Γ.Adds bound st'.env ∧
      ∀ name ∈ ([] : List String), (Γ.get? name).isSome) (Blames [] Γ) := by
  refine .intro (fun a st' hrun => ?_) fun e st' hrun => .inl (hplain hrun)
  rw [hrun] at henv
  exact ⟨henv.symm ▸ hst, nofun⟩

theorem speaksPlainly_runUnify {step : Subst → UnifyM Subst}
    {explain : Subst → UnifyError → TypingError}
    (h : ∀ s e, (explain s e).SpeaksPlainly) {st' : InferState}
    (he : runUnify step explain st = .error e st') :
    e.SpeaksPlainly := by
  rw [runUnify_eq] at he
  split at he <;> cases he
  exact h _ _

theorem speaksPlainly_explainTypes {expected actual : Ty} {origin : Origin} (s : Subst)
    (e : UnifyError) :
    (explainTypes expected actual origin s e).SpeaksPlainly := by
  cases e <;> trivial

theorem speaksPlainly_resolve {written : Spanned TypeExpr} {st' : InferState}
    (he : resolve reg written st = .error e st') : e.SpeaksPlainly := by
  have hsteps : Resolve.Stepwise (Resolve.type reg written.span written.node) := .type written.node
  rw [resolve_eq] at he
  split at he <;> cases he
  exact (hsteps.speaksPlainly _).error ‹_›

/-- If the computation succeeds, all names it looks up have types, and it has bound what it binds.
If it fails, it blames no other name than one of those. -/
theorem Stepwise.ends (h : Stepwise bound binds looks x) (hst : Γ.Adds bound st.env) :
    Ends x st (fun _ st' => Γ.Adds (binds ++ bound) st'.env ∧ ∀ name ∈ looks, (Γ.get? name).isSome)
      (Blames looks Γ) := by
  induction h generalizing st with
  | pure => exact .pure ⟨hst, nofun⟩
  | throw he => exact .throw (.inl he)
  | @seq bound binds binds' looks looks' _ _ x f _ _ ih ihf =>
    have hx := ih hst
    refine .intro (fun b st₂ hb => ?_) fun e st₂ he => ?_
    · obtain ⟨a, st₁, hrun, hb⟩ := bind_eq_ok.mp hb
      obtain ⟨hst₁, hlooks⟩ := hx.ok hrun
      obtain ⟨hst₂, hlooks'⟩ := (ihf a st st₁ hrun hst₁).ok hb
      exact ⟨hst₂.congr fun name => by simp only [mem_append]; tauto,
        fun name hname => (mem_append.mp hname).elim (hlooks name) (hlooks' name)⟩
    · rcases hrun : x st with ⟨a, st₁⟩ | ⟨e', st₁⟩
      · rw [bind_of_ok hrun] at he
        exact ((ihf a st st₁ hrun (hx.ok hrun).1).error he).mono fun _ => mem_append_right _
      · rw [bind_of_error hrun] at he
        cases he
        exact (hx.error hrun).mono fun _ => mem_append_left _
  | read _ _ ih => exact .get_bind (ih st hst)
  | @lookup bound _ f g name span hnone hsome _ ih =>
    refine .get_bind ?_
    rcases hget : st.env.get? name with _ | σ
    · rw [hnone st hget]
      have hbound : name ∉ bound := by
        intro hbound
        obtain ⟨σ, hσ⟩ := Option.isSome_iff_exists.mp (hst.binds name hbound)
        cases hget.symm.trans (Env.get?_of_local hσ)
      refine .throw (.inr ⟨name, ?_, (hst.get?_eq hbound).symm.trans hget, span, rfl⟩)
      simp [hbound]
    · rw [hsome st σ hget]
      refine (ih σ hst).imp (fun _ _ h => ⟨h.1, fun name' hname' => ?_⟩)
        fun e he => he.mono (by simp)
      split at hname'
      · cases hname'
      · rename_i hbound
        rw [mem_singleton.mp hname', ← hst.get?_eq hbound, hget]
        rfl
  | @tryCatch _ _ x handle hx _ ih ihhandle =>
    have henv := hx.env_eq st
    rcases hrun : x st with ⟨a, st₁⟩ | ⟨e, st₁⟩
    · rw [Ends, tryCatch_of_ok hrun]
      exact (ih hst).ok hrun
    · rw [hrun] at henv
      rw [Ends, tryCatch_of_error hrun]
      by_cases he : handle e = MonadExcept.throw e
      · rw [he]
        exact (ih hst).error hrun
      · exact ihhandle e he (henv.symm ▸ hst)
  | @withScope _ _ _ _ x hx ih =>
    have henv := hx.withScope.env_eq st
    have hends := @ih { st with env := st.env.push } hst.push
    rw [withScope_eq] at henv
    rw [Ends, withScope_eq]
    rcases hrun : x { st with env := st.env.push } with ⟨a, st₁⟩ | ⟨e, st₁⟩ <;> rw [hrun] at henv
    · exact ⟨henv.symm ▸ hst, (hends.ok hrun).2⟩
    · exact hends.error hrun
  | unify =>
    exact ends_plain hst (env_runUnify _ _ st) (speaksPlainly_runUnify speaksPlainly_explainTypes)
  | unifyRows =>
    refine ends_plain hst (env_runUnify _ _ st) (speaksPlainly_runUnify ?_)
    exact fun _ _ => trivial
  | resolve reg written => exact ends_plain hst (env_resolve reg written st) speaksPlainly_resolve
  | record => exact .modify ⟨(st.env_note _).symm ▸ hst, nofun⟩
  | recordCases | constrain | defer => exact .modify ⟨hst, nofun⟩
  | freshTypeVar | freshEffectVar | takeObligations => exact .modifyGet ⟨hst, nofun⟩
  | bindName name σ => exact .modify ⟨hst.bind name σ, nofun⟩

/-! ## What inference does not depend on -/

/-- A change of the state that no primitive step notices, apart from the types of globals. -/
structure Unnoticed (view : InferState → InferState) : Prop where
  subst : ∀ st, (view st).subst = st.subst
  names : ∀ st, (view st).names = st.names
  scopes : ∀ st, (view st).env.scopes = st.env.scopes
  push : ∀ st, view { st with env := st.env.push } = { view st with env := (view st).env.push }
  pop : ∀ st, view (closeScope st) = closeScope (view st)
  freshTypeVar : Commutes view freshTypeVar
  freshEffectVar : Commutes view freshEffectVar
  unify : ∀ expected actual origin, Commutes view (unify expected actual origin)
  unifyRows : ∀ expected actual origin, Commutes view (unifyRows expected actual origin)
  resolve : ∀ reg written, Commutes view (resolve reg written)
  record : ∀ rule subject t detail span, Commutes view (record rule subject t detail span)
  recordCases : ∀ cases, Commutes view (recordCases cases)
  constrain : ∀ t traitName origin, Commutes view (constrain t traitName origin)
  defer : ∀ obs, Commutes view (defer obs)
  takeObligations : Commutes view takeObligations
  bindName : ∀ name σ, Commutes view (Infer.bind name σ)

/-- A change that no step notices and that keeps the globals that are looked up makes no
difference. -/
theorem Stepwise.commutes {view : InferState → InferState} (hview : Unnoticed view)
    (h : Stepwise bound binds looks x) (hst : Γ.Adds bound st.env)
    (hglobals : ∀ name ∈ looks, ∀ st : InferState,
      st.env.globals = Γ.globals → (view st).env.globals.get? name = st.env.globals.get? name) :
    x (view st) = viewed view (x st) := by
  induction h generalizing st with
  | pure | throw => rfl
  | seq h _ ih ihf =>
    refine viewed_bind (ih hst fun name hname => hglobals name (mem_append_left _ hname))
      fun a st₁ hrun => ?_
    exact ihf a st st₁ hrun ((h.ends hst).ok hrun).1 fun name hname =>
      hglobals name (mem_append_right _ hname)
  | @read _ _ _ _ f hf _ ih =>
    change f (view st) (view st) = _
    rw [hf (view st) st (hview.subst st) (hview.names st) (hview.scopes st)]
    exact ih st hst hglobals
  | @lookup bound _ f g name span hnone hsome _ ih =>
    change f (view st) (view st) = viewed _ (f st st)
    have hget : (view st).env.get? name = st.env.get? name := by
      rw [Env.get?_eq_or, Env.get?_eq_or, Env.local?, hview.scopes st, ← Env.local?]
      by_cases hbound : name ∈ bound
      · obtain ⟨σ, hσ⟩ := Option.isSome_iff_exists.mp (hst.binds name hbound)
        rw [hσ, Option.some_or, Option.some_or]
      · rw [hglobals name (by simp [hbound]) st hst.globals]
    rcases hσ : st.env.get? name with _ | σ
    · rw [hnone st hσ, hnone _ (hget.trans hσ)]
      rfl
    · rw [hsome st σ hσ, hsome _ σ (hget.trans hσ)]
      exact ih σ hst nofun
  | @tryCatch _ _ x handle h _ ih ihhandle =>
    have henv := h.env_eq st
    have hx := ih hst nofun
    rcases hrun : x st with ⟨a, st₁⟩ | ⟨e, st₁⟩ <;> rw [hrun] at hx henv
    · rw [tryCatch_of_ok hrun, tryCatch_of_ok hx]
      rfl
    · rw [tryCatch_of_error hrun, tryCatch_of_error hx]
      by_cases he : handle e = MonadExcept.throw e
      · rw [he]
        rfl
      · exact ihhandle e he (henv.symm ▸ hst) nofun
  | @withScope _ _ _ _ x _ ih =>
    have hx := @ih { st with env := st.env.push } hst.push hglobals
    rw [withScope_eq, withScope_eq, ← hview.push, hx]
    cases x { st with env := st.env.push } <;> simp only [viewed, hview.pop]
  | freshTypeVar => exact hview.freshTypeVar st
  | freshEffectVar => exact hview.freshEffectVar st
  | unify expected actual origin => exact hview.unify expected actual origin st
  | unifyRows expected actual origin => exact hview.unifyRows expected actual origin st
  | resolve reg written => exact hview.resolve reg written st
  | record rule subject t detail span => exact hview.record rule subject t detail span st
  | recordCases cases => exact hview.recordCases cases st
  | constrain t traitName origin => exact hview.constrain t traitName origin st
  | defer obs => exact hview.defer obs st
  | takeObligations => exact hview.takeObligations st
  | bindName name σ => exact hview.bindName name σ st

theorem withGlobals_runUnify (step : Subst → UnifyM Subst)
    (explain : Subst → UnifyError → TypingError)
    (globals : Dict String Scheme) : Commutes (·.withGlobals globals) (runUnify step explain) := by
  intro st
  simp only [runUnify_eq, InferState.withGlobals]
  cases step st.subst st.unifier <;> rfl

theorem unnoticed_withGlobals (globals : Dict String Scheme) :
    Unnoticed (·.withGlobals globals) where
  subst _ := rfl
  names _ := rfl
  scopes _ := rfl
  push _ := rfl
  pop _ := rfl
  freshTypeVar _ := rfl
  freshEffectVar _ := rfl
  unify _ _ _ := withGlobals_runUnify _ _ globals
  unifyRows _ _ _ := withGlobals_runUnify _ _ globals
  resolve reg written st := by
    simp only [resolve_eq, InferState.withGlobals]
    cases Resolve.type reg written.span written.node
      { fresh := st.unifier.fresh, scope := .empty } <;> rfl
  record _ _ _ _ _ st := congrArg (EStateM.Result.ok _) (st.withGlobals_note globals _)
  recordCases _ _ := rfl
  constrain _ _ _ _ := rfl
  defer _ _ := rfl
  takeObligations _ := rfl
  bindName name σ st := by
    change EStateM.Result.ok () { st with env := (st.env.withGlobals globals).bind name σ } = _
    rw [Env.withGlobals_bind]
    rfl

/-! ## Free names -/

/-- In an environment that has a type for the name if it is looked up, the name is not reported as
unbound. -/
theorem Stepwise.spares (h : Stepwise [] [] looks x) (hn : n ∈ looks → (Γ.get? n).isSome)
    (hst : st.env = Γ) :
    Ends x st (fun _ st' => st'.env = Γ) fun e => Spares n e.message := by
  have henv := h.env_eq st
  refine .intro (fun a st' hrun => ?_) fun e st' hrun => ?_
  · rw [hrun] at henv
    exact henv.trans hst
  · rcases (h.ends (Γ := Γ) (hst ▸ .refl)).error hrun with hplain | ⟨name, hname, hnone, span, rfl⟩
    · exact hplain.spares
    · refine spares_unbound ?_
      rintro rfl
      rw [hnone] at hn
      cases hn hname

/-- The names are exactly what the computation looks up: of the globals only theirs matter, all of
them are bound if it succeeds, and only they are reported as unbound, if they are. -/
structure LooksUp (names : List String) (x : InferM α) : Prop where
  depends : ∀ st globals, (∀ n ∈ names, globals.get? n = st.env.globals.get? n) →
    x (st.withGlobals globals) = viewed (·.withGlobals globals) (x st)
  found : ∀ {st st' a}, x st = .ok a st' → ∀ n ∈ names, (st.env.get? n).isSome
  unbound : ∀ {st st' n span}, x st = .error (.unboundVariable n span) st' →
    n ∈ names ∧ st.env.get? n = none

theorem Stepwise.looksUp (h : Stepwise [] [] looks x) : LooksUp (Sorted.ofList looks) x where
  depends st globals hglobals :=
    h.commutes (unnoticed_withGlobals globals) .refl fun n hn st' hst' =>
    (hglobals n (Sorted.mem_ofList.mpr hn)).trans (by rw [hst'])
  found hrun n hn := ((h.ends .refl).ok hrun).2 n (Sorted.mem_ofList.mp hn)
  unbound hrun := by
    rcases (h.ends .refl).error hrun with hplain | ⟨name, hname, hnone, span, heq⟩
    · exact hplain.elim
    · cases heq
      exact ⟨Sorted.mem_ofList.mpr hname, hnone⟩

/-- The free names of an expression are exactly what its inference looks up, and those of a
definition what the inference of the definition looks up. -/
theorem freeNames_looked_up (reg : Registry) :
    (∀ e : Expr, LooksUp e.freeNames (expr reg e)) ∧
      ∀ d : Definition, LooksUp d.freeNames (definition reg d) :=
  ⟨fun e => (Stepwise.expr e).looksUp, fun d => (Stepwise.definition d).looksUp⟩

/-- Inference leaves the environment as it was, with all its scopes, whether it succeeds or
fails. -/
theorem inference_keeps_env (reg : Registry) (st : InferState) :
    (∀ e : Expr, (leftState (expr reg e st)).env = st.env) ∧
      ∀ d : Definition, (leftState (definition reg d st)).env = st.env :=
  ⟨fun e => (@Stepwise.expr reg [] e).env_eq st, fun d => (Stepwise.definition d).env_eq st⟩

end Infer

end RowTyping
