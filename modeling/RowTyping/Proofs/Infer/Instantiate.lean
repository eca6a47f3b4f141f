import RowTyping.Proofs.Infer.Operations

/-!
# Instances of schemes

Using a scheme renames its quantified variables to variables that have just been drawn
(`Subst.Renames`). Whatever the drawn variables come to stand for, the result is an instance of the
scheme, or one whose closed row has been opened (`Infer.instantiate_ok`).
-/

namespace RowTyping

open List

/-! ## Renaming to drawn variables -/

/-- Every binding replaces a variable with the property `Q` by one drawn between two states of a
supply. -/
structure Subst.Renames (s : Subst) (Q : Region) (f f' : Fresh) : Prop where
  types : ∀ {v t}, s.types.get? v = some t →
    Q (.type v) ∧ ∃ w, t = .var w ∧ f.HandedOut f' (.type w)
  effects : ∀ {e r}, s.effects.get? e = some r →
    Q (.effect e) ∧ ∃ w, r = .ofVar w ∧ f.HandedOut f' (.effect w)

namespace Subst

variable {s : Subst} {Q P : Region} {f f' f'' : Fresh}

theorem renames_empty : empty.Renames Q f f' where
  types h := nomatch h
  effects h := nomatch h

theorem Renames.later (h : s.Renames Q f f') (hlater : f'.Later f'') : s.Renames Q f f'' where
  types hv := by
    obtain ⟨hQ, w, rfl, hw⟩ := h.types hv
    exact ⟨hQ, w, rfl, hw.later hlater⟩
  effects he := by
    obtain ⟨hQ, w, rfl, hw⟩ := h.effects he
    exact ⟨hQ, w, rfl, hw.later hlater⟩

theorem Renames.bindType (h : s.Renames Q f f') {v w : TypeVar} (hv : Q (.type v))
    (hw : f.HandedOut f' (.type w)) : (s.bindType v (.var w)).Renames Q f f' where
  types {v' t} hv' := by
    by_cases heq : v' = v
    · obtain rfl : Ty.var w = t := by simpa [Subst.bindType, heq] using hv'
      exact ⟨heq ▸ hv, w, rfl, hw⟩
    · exact h.types (by simpa [Subst.bindType, heq] using hv')
  effects he := h.effects he

theorem Renames.bindEffect (h : s.Renames Q f f') {e w : EffectVar} (he : Q (.effect e))
    (hw : f.HandedOut f' (.effect w)) : (s.bindEffect e (.ofVar w)).Renames Q f f' where
  types hv := h.types hv
  effects {e' r} he' := by
    by_cases heq : e' = e
    · obtain rfl : Row.ofVar w = r := by simpa [Subst.bindEffect, heq] using he'
      exact ⟨heq ▸ he, w, rfl, hw⟩
    · exact h.effects (by simpa [Subst.bindEffect, heq] using he')

theorem Renames.binds (h : s.Renames Q f f') {x : Var} (hx : s.Binds x) : Q x := by
  rcases x with v | e
  · obtain ⟨t, ht⟩ := Option.isSome_iff_exists.mp hx
    exact (h.types ht).1
  · obtain ⟨r, hr⟩ := Option.isSome_iff_exists.mp hx
    exact (h.effects hr).1

section Fresh

variable (h : s.Renames Q f f') (hQ : ∀ x, Q x → ¬ f.Upcoming x) {x : Var} {t : Ty}

include h

theorem Renames.leadsTo {y : Var} (hxy : s.LeadsTo x y) : f.HandedOut f' y := by
  rcases leadsTo_iff.mp hxy with ⟨v, t, rfl, ht, hy⟩ | ⟨e, r, e', rfl, hr, htail, rfl⟩
  · obtain ⟨-, w, rfl, hw⟩ := h.types ht
    rwa [mem_singleton.mp hy]
  · obtain ⟨-, w, rfl, hw⟩ := h.effects hr
    rwa [← Option.some.inj htail]

include hQ

theorem Renames.not_binds (hx : f.HandedOut f' x) : ¬ s.Binds x :=
  fun hbinds => hQ x (h.binds hbinds) hx.1

theorem Renames.acyclic : s.Acyclic :=
  acyclic_empty.of_sinks fun _ _ hxy => .inr (h.not_binds hQ (h.leadsTo hxy))

/-- What a variable stands for is the variable itself or a drawn one. -/
theorem Renames.types_valuation (v : TypeVar) :
    ∃ w, s.valuation.types v = .var w ∧
      (¬ s.Binds (.type v) ∧ w = v ∨ s.Binds (.type v) ∧ f.HandedOut f' (.type w)) := by
  rcases ht : s.types.get? v with _ | t
  · exact ⟨v, types_of_unbound ht, .inl ⟨by simp [Binds, ht], rfl⟩⟩
  · obtain ⟨-, w, rfl, hw⟩ := h.types ht
    -- a drawn variable is not renamed again
    have hunbound : s.types.get? w = none := by
      simpa [Binds] using h.not_binds hQ hw
    refine ⟨w, ?_, .inr ⟨by simp [Binds, ht], hw⟩⟩
    rw [(h.acyclic hQ).types_of_bound ht, Ty.under_var, types_of_unbound hunbound]

theorem Renames.row_valuation (e : EffectVar) :
    ∃ w, s.valuation.row e = .ofVar w ∧
      (¬ s.Binds (.effect e) ∧ w = e ∨ s.Binds (.effect e) ∧ f.HandedOut f' (.effect w)) := by
  rcases hr : s.effects.get? e with _ | r
  · exact ⟨e, Valuation.row_of_none (effects_of_unbound hr), .inl ⟨by simp [Binds, hr], rfl⟩⟩
  · obtain ⟨-, w, rfl, hw⟩ := h.effects hr
    have hunbound : s.effects.get? w = none := by
      simpa [Binds] using h.not_binds hQ hw
    refine ⟨w, ?_, .inr ⟨by simp [Binds, hr], hw⟩⟩
    rw [Valuation.row_of_some ((h.acyclic hQ).effects_of_bound hr), ← Valuation.row,
      Valuation.row_of_none (effects_of_unbound hunbound)]
    rfl

theorem Renames.image {y : Var} (hy : y ∈ s.valuation.image x) :
    ¬ s.Binds x ∧ y = x ∨ s.Binds x ∧ f.HandedOut f' y := by
  rcases x with v | e
  · obtain ⟨w, hw, hcases⟩ := h.types_valuation hQ v
    obtain rfl : y = .type w := by simpa [Valuation.image, hw, Ty.occurrences] using hy
    exact hcases.imp_left fun hv => ⟨hv.1, by rw [hv.2]⟩
  · obtain ⟨w, hw, hcases⟩ := h.row_valuation hQ e
    obtain rfl : y = .effect w := by simpa [Valuation.image, hw, Row.ofVar] using hy
    exact hcases.imp_left fun he => ⟨he.1, by rw [he.2]⟩

/-- A renamed type is over the drawn variables and the variables that are not renamed. -/
theorem Renames.apply_over (hdrawn : ∀ x, f.HandedOut f' x → P x)
    (ht : ∀ x ∈ t.occurrences, s.Binds x ∨ P x) :
    (s.apply t).Over P := by
  intro y hy
  rw [apply_eq_under] at hy
  obtain ⟨x, hx, hy⟩ := Ty.mem_occurrences_under.mp hy
  rcases h.image hQ hy with ⟨hunbound, rfl⟩ | ⟨-, hy⟩
  · exact (ht y hx).resolve_left hunbound
  · exact hdrawn y hy

theorem Renames.apply_usable (hsorted : t.RowsSorted)
    (ht : ∀ x ∈ t.occurrences, s.Binds x ∨ ¬ f'.Upcoming x) :
    (s.apply t).Usable f' := by
  refine ⟨?_, h.apply_over hQ (fun x hx => hx.2) ht⟩
  rw [apply_eq_under]
  refine hsorted.under fun v _ => ?_
  obtain ⟨w, hw, -⟩ := h.types_valuation hQ v
  rw [hw]
  exact fun r hr => (not_mem_nil hr).elim

/-- A function type with a closed row comes from a function type with this row. -/
theorem Renames.fn_of_under {params : List Ty} {result : Ty} {closed : Row}
    (ht : t.under s.valuation = .fn params result closed) (htail : closed.tail = none) :
    ∃ params₀ result₀, t.under .self = .fn params₀ result₀ closed := by
  induction t with
  | prim p => cases ht
  | var v =>
    obtain ⟨w, hw, -⟩ := h.types_valuation hQ v
    rw [Ty.under_var, hw] at ht
    cases ht
  | named name args ih =>
    rw [Ty.under_named] at ht
    cases ht
  | app head args ihHead ihArgs =>
    -- an application to no arguments is its head, any other one stays an application
    rcases args with _ | ⟨a, as⟩
    · exact ihHead ht
    · rw [Ty.under_app] at ht
      rcases hhead : head.under s.valuation <;> simp [hhead, Ty.applyTo] at ht
  | fn params₀ result₀ effects₀ ihParams ihResult =>
    rw [Ty.under_fn] at ht
    obtain ⟨-, -, heffects⟩ := Ty.fn.inj ht
    -- renaming an open row leaves it open
    rcases htail₀ : effects₀.tail with _ | e
    · rw [Ty.under_fn, Row.under_self, ← heffects, Row.under_of_tail_none htail₀]
      exact ⟨_, _, rfl⟩
    · obtain ⟨w, hw, -⟩ := h.row_valuation hQ e
      rw [← heffects, Row.tail_under_of_some htail₀, hw] at htail
      cases htail
  | tuple elems ih =>
    rw [Ty.under_tuple] at ht
    cases ht

end Fresh

end Subst

namespace Infer

variable {st st' : InferState} {f : Fresh} {Q : Region} {s : Subst} {σ : Scheme}

theorem renewTypes_ok {s' : Subst} {vs : List TypeVar} (hd : st.fresh.Distinct)
    (hlater : f.Later st.fresh) (hs : s.Renames Q f st.fresh) (hvs : ∀ v ∈ vs, Q (.type v))
    (h : renewTypes s vs st = .ok s' st') :
    Draws st st' ∧ s'.Renames Q f st'.fresh ∧ (∀ x, s.Binds x → s'.Binds x) ∧
      ∀ v ∈ vs, s'.Binds (.type v) := by
  induction vs generalizing st s with
  | nil =>
    simp only [renewTypes, pure_eq_ok] at h
    obtain ⟨rfl, rfl⟩ := h
    exact ⟨.refl _, hs, fun _ h => h, by simp⟩
  | cons v vs ih =>
    simp only [renewTypes, bind_eq_ok] at h
    obtain ⟨t, st₁, ht, h⟩ := h
    obtain ⟨hdraws₁, w, rfl, hw⟩ := freshType_ok hd ht
    rw [forall_mem_cons] at hvs
    obtain ⟨hdraws, hrenames, hbinds, hall⟩ := ih (hdraws₁.later.distinct hd)
      (hlater.trans hdraws₁.later) ((hs.later hdraws₁.later).bindType hvs.1 (hw.earlier hlater))
      hvs.2 h
    refine ⟨hdraws₁.trans hdraws, hrenames, fun x hx => ?_, forall_mem_cons.mpr ⟨?_, hall⟩⟩
    · exact hbinds x (Subst.binds_bindType.mpr (.inr hx))
    · exact hbinds _ (Subst.binds_bindType.mpr (.inl rfl))

theorem renewEffects_ok {s' : Subst} {es : List EffectVar} (hd : st.fresh.Distinct)
    (hlater : f.Later st.fresh) (hs : s.Renames Q f st.fresh) (hes : ∀ e ∈ es, Q (.effect e))
    (h : renewEffects s es st = .ok s' st') :
    Draws st st' ∧ s'.Renames Q f st'.fresh ∧ (∀ x, s.Binds x → s'.Binds x) ∧
      ∀ e ∈ es, s'.Binds (.effect e) := by
  induction es generalizing st s with
  | nil =>
    simp only [renewEffects, pure_eq_ok] at h
    obtain ⟨rfl, rfl⟩ := h
    exact ⟨.refl _, hs, fun _ h => h, by simp⟩
  | cons e es ih =>
    simp only [renewEffects, bind_eq_ok] at h
    obtain ⟨r, st₁, hr, h⟩ := h
    obtain ⟨hdraws₁, w, rfl, hw⟩ := freshRow_ok hd hr
    rw [forall_mem_cons] at hes
    obtain ⟨hdraws, hrenames, hbinds, hall⟩ := ih (hdraws₁.later.distinct hd)
      (hlater.trans hdraws₁.later) ((hs.later hdraws₁.later).bindEffect hes.1 (hw.earlier hlater))
      hes.2 h
    refine ⟨hdraws₁.trans hdraws, hrenames, fun x hx => ?_, forall_mem_cons.mpr ⟨?_, hall⟩⟩
    · exact hbinds x (Subst.binds_bindEffect.mpr (.inr hx))
    · exact hbinds _ (Subst.binds_bindEffect.mpr (.inl rfl))

/-! ## Using a scheme -/

/-- All quantified variables of a scheme are renamed to drawn ones. -/
theorem renew_ok {s₁ : Subst} {st₁ : InferState} (hd : st.fresh.Distinct)
    (h₁ : renewTypes .empty σ.typeVars st = .ok s₁ st₁)
    (h : renewEffects s₁ σ.effectVars st₁ = .ok s st') :
    Draws st st' ∧ s.Renames (· ∈ σ.quantified) st.fresh st'.fresh ∧
      ∀ x ∈ σ.quantified, s.Binds x := by
  obtain ⟨hdraws₁, hrenames₁, -, hbinds₁⟩ := renewTypes_ok (Q := (· ∈ σ.quantified)) hd
    (.refl _) Subst.renames_empty (fun v => Scheme.mem_quantified_type.mpr) h₁
  obtain ⟨hdraws, hrenames, hkeeps, hbinds⟩ := renewEffects_ok (hdraws₁.later.distinct hd)
    hdraws₁.later hrenames₁ (fun e => Scheme.mem_quantified_effect.mpr) h
  refine ⟨hdraws₁.trans hdraws, hrenames, fun x hx => ?_⟩
  cases x with
  | type v => exact hkeeps _ (hbinds₁ v (Scheme.mem_quantified_type.mp hx))
  | effect e => exact hbinds e (Scheme.mem_quantified_effect.mp hx)

/-- A renamed scheme is an instance, whatever the drawn variables stand for. -/
theorem hasInstance_of_renames {f' : Fresh} (h : s.Renames (· ∈ σ.quantified) f f')
    (U : Valuation) :
    σ.HasInstance U ((s.apply σ.type).under U) := by
  -- quantified variables stand for what their new names come to stand for
  refine ⟨s.valuation.andThen U, fun x hx => ?_, ?_⟩
  · exact Subst.agreesAt_of_not_binds (fun hbinds => hx (h.binds hbinds)) U
  · rw [Subst.apply_eq_under, Ty.under_andThen]

/-- A renamed function with its row opened may be used in place of the scheme. -/
theorem opened_ok {f' : Fresh} {params : List Ty} {result : Ty} {effects opened : Row}
    (hs : s.Renames (· ∈ σ.quantified) f f') (hQ : ∀ x, x ∈ σ.quantified → ¬ f.Upcoming x)
    (htype : s.apply σ.type = .fn params result effects) (hd : st.fresh.Distinct)
    (hopen : openRow effects st = .ok opened st') (heffects : effects.Usable st.fresh)
    (U : Valuation) :
    σ.HasInstance U ((Ty.fn params result opened).under U) ∨
      σ.OpensTo U ((Ty.fn params result opened).under U) := by
  have hinstance := hasInstance_of_renames hs U
  rw [htype] at hinstance
  rcases (openRow_cases hd hopen).2 with ⟨-, rfl⟩ | ⟨htail, -⟩
  · exact .inl hinstance
  · -- the row was closed before it was renamed, too
    right
    have hle := (openRow_ok hd heffects hopen).2.2.2 U
    rw [Row.under_of_tail_none htail] at hle
    rw [Ty.under_fn, Row.under_of_tail_none htail] at hinstance
    exact ⟨_, _, effects, _, ⟨htail, hs.fn_of_under hQ htype htail⟩, hle, hinstance, Ty.under_fn ..⟩

/-- A scheme is used at an instance, or at one whose closed row has been opened. -/
theorem instantiate_ok {span : Span} {t : Ty} (hst : st.subst.Valid st.fresh)
    (hσ : σ.Usable st.fresh) (h : instantiate σ span st = .ok t st') :
    Raises st st' ∧ t.Usable st'.fresh ∧
      (∀ P, st.Inside P → (∀ x, σ.Free x → P x) → t.Over P) ∧
      ∀ U, (σ.under U).uses (t.under U) := by
  simp only [instantiate] at h
  split at h
  · -- nothing is quantified or required: the type itself is used
    rename_i hplain
    obtain ⟨rfl, rfl⟩ := pure_eq_ok.mp h
    obtain ⟨⟨htypes, heffects⟩, -⟩ :
        (σ.typeVars = [] ∧ σ.effectVars = []) ∧ σ.givens = [] := by
      simpa [Scheme.isMono] using hplain
    refine ⟨⟨⟨rfl, rfl, .refl _⟩, [], Prod.ext (append_nil _).symm rfl⟩, hσ.type,
      fun P _ hfree x hx => ?_, fun U => ?_⟩
    · exact hfree x ⟨hx, by simp [Scheme.quantified, htypes, heffects]⟩
    · rw [Scheme.under, if_pos hplain]
      rfl
  rename_i hplain
  simp only [bind_eq_ok] at h
  obtain ⟨s₁, st₁, hs₁, s, st₂, hs, _, st₃, hgivens, h⟩ := h
  obtain ⟨hdraws₂, hrenames₂, hbinds⟩ := renew_ok hst.distinct hs₁ hs
  have hraises := constrainGivens_ok hgivens
  have hdraws := hdraws₂.toPreserves.trans hraises.toPreserves
  have hrenames := hrenames₂.later hraises.later
  have hQ : ∀ x, x ∈ σ.quantified → ¬ st.fresh.Upcoming x := fun x hx => hσ.quantified hx
  have husable : (s.apply σ.type).Usable st₃.fresh := by
    refine hrenames.apply_usable hQ hσ.type.sorted fun x hx => .inr fun hup => ?_
    exact hσ.type.drawn x hx (hdraws.later.upcoming hup)
  -- what is left of the scheme's own variables after renaming is free in it
  have hover {P : Region} (hP : st.Inside P) (hfree : ∀ x, σ.Free x → P x) :
      (s.apply σ.type).Over P := by
    refine hrenames.apply_over hQ (fun x hx => hP.upcoming hx.1) fun x hx => ?_
    by_cases hq : x ∈ σ.quantified
    · exact .inl (hbinds x hq)
    · exact .inr (hfree x ⟨hx, hq⟩)
  have huses (U : Valuation) :
      (σ.under U).uses = fun t => σ.HasInstance U t ∨ σ.OpensTo U t := by
    rw [Scheme.under, if_neg hplain]
  have hinstance := hasInstance_of_renames hrenames
  -- only the row of a function is opened
  generalize htype : s.apply σ.type = t₀ at h
  rw [htype] at husable hinstance
  cases t₀ with
  | fn params result effects =>
    simp only [bind_eq_ok, pure_eq_ok] at h
    obtain ⟨opened, st₄, hopen, rfl, rfl⟩ := h
    obtain ⟨hparams, hresult, heffects⟩ := Ty.usable_fn.mp husable
    have hd := (hdraws.valid hst).distinct
    obtain ⟨hdraws₄, hopened, hoverOpened, -⟩ := openRow_ok hd heffects hopen
    refine ⟨hraises.between hdraws₂ hdraws₄,
      Ty.usable_fn.mpr ⟨fun t ht => (hparams t ht).later hdraws₄.later,
        hresult.later hdraws₄.later, hopened⟩, fun P hP hfree => ?_, fun U => ?_⟩
    · have hwhole := hover hP hfree
      rw [htype, Ty.over_fn] at hwhole
      have hP₃ := (hdraws.stays (I := fun _ => True) (O := fun _ => True) hst
        fun _ _ _ => trivial).inside P hP trivial
      exact Ty.over_fn.mpr ⟨hwhole.1, hwhole.2.1, hoverOpened P hP₃.1 hwhole.2.2⟩
    · rw [huses]
      exact opened_ok hrenames hQ htype hd hopen heffects U
  | prim _ | var _ | named _ _ | app _ _ | tuple _ =>
    obtain ⟨rfl, rfl⟩ := pure_eq_ok.mp h
    refine ⟨hraises.between hdraws₂ (.refl _), husable, fun P hP hfree => htype ▸ hover hP hfree,
      fun U => ?_⟩
    rw [huses]
    exact .inl (hinstance U)

end Infer

end RowTyping
