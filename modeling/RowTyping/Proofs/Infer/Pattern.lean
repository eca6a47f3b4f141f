import RowTyping.Proofs.Infer.Instantiate

/-!
# Inferred patterns

A pattern that inference accepts fits the type it is matched with, for every valuation that absorbs
the substitution (`Infer.pattern_ok`). The names it binds are bound in the innermost scope
(`Infer.BindsNames`).
-/

namespace RowTyping

open List

theorem Literal.usable_type (value : Literal) {f : Fresh} : value.type.Usable f := by
  cases value <;> exact Ty.usable_prim _

theorem Literal.over_type (value : Literal) {P : Region} : value.type.Over P := by
  cases value <;> exact Ty.over_prim _

@[simp]
theorem Literal.under_type (value : Literal) (V : Valuation) : value.type.under V = value.type := by
  cases value <;> rfl

namespace Infer

/-- A computation binds names to types over every region of which its inputs `I` hold. -/
structure BindsNames (st st' : InferState) (I : Region → Prop) (bindings : List (String × Ty)) :
    Prop where
  advances : Advances st st' I fun P => ∀ b ∈ bindings, b.2.Over P
  env : st'.env = st.env.bindAll bindings
  unsettled : st'.unsettled = st.unsettled
  usable : ∀ b ∈ bindings, b.2.Usable st'.fresh

variable {st st' st₁ : InferState} {reg : Registry}

theorem BindsNames.trans {I I' : Region → Prop} {first rest : List (String × Ty)}
    (h : BindsNames st st₁ I first) (h' : BindsNames st₁ st' I' rest) (hI : ∀ P, I P → I' P) :
    BindsNames st st' I (first ++ rest) where
  advances := (h.advances.trans h'.advances fun P hP _ => hI P hP).imp (fun _ h => h)
    fun _ _ _ hO => forall_mem_append.mpr hO
  env := by rw [h'.env, h.env, Env.bindAll_append]
  unsettled := h'.unsettled.trans h.unsettled
  usable := forall_mem_append.mpr
    ⟨fun b hb => (h.usable b hb).later h'.advances.later, h'.usable⟩

/-- A computation that binds no names. -/
theorem BindsNames.of_runs {I O : Region → Prop} (h : Runs st st' I O) : BindsNames st st' I [] :=
  ⟨h.toAdvances.imp (fun _ h => h) (by simp), h.env, h.unsettled, by simp⟩

/-- Binding names after computations that bind none. -/
theorem BindsNames.after {I I' O : Region → Prop} {bindings : List (String × Ty)}
    (h : Runs st st₁ I O) (h' : BindsNames st₁ st' I' bindings) (hI : ∀ P, I P → O P → I' P) :
    BindsNames st st' I bindings where
  advances := (h.toAdvances.trans h'.advances hI).imp (fun _ h => h) fun _ _ _ hO => hO.2
  env := by rw [h'.env, h.env]
  unsettled := h'.unsettled.trans h.unsettled
  usable := h'.usable

theorem bindMono_ok {name : String} {t : Ty} {u : Unit} (hst : st.subst.Valid st.fresh)
    (ht : t.Usable st.fresh) (h : bind name (.mono t) st = .ok u st') :
    BindsNames st st' t.Over [(name, t)] := by
  simp only [bind, modify_eq_ok] at h
  subst h
  refine ⟨⟨hst, .refl _, .refl _, fun _ _ _ _ hx => .inl hx,
    fun P hP hover => ⟨⟨hP.1, hP.2⟩, ?_⟩⟩, rfl, rfl, ?_⟩
  · simpa using hover
  · simpa using ht

/-- The variable is a parameter of the data type. -/
def IsParam (d : DataType) : Region :=
  fun x => ∃ v ∈ d.paramVars, x = .type v

theorem resultType_over (d : DataType) : d.resultType.Over (IsParam d) := by
  intro x hx
  obtain ⟨t, ht, hx⟩ := Ty.mem_occurrences_named.mp hx
  obtain ⟨v, hv, rfl⟩ := mem_map.mp ht
  exact ⟨v, hv, mem_singleton.mp hx⟩

theorem resultType_sorted (d : DataType) : d.resultType.RowsSorted := by
  intro r hr
  obtain ⟨t, ht, hr⟩ := Ty.mem_rows_named.mp hr
  obtain ⟨v, -, rfl⟩ := mem_map.mp ht
  exact (not_mem_nil hr).elim

/-- A type over the parameters of a data type is over drawn variables once they are renamed. -/
theorem renewed_ok {d : DataType} {s : Subst} (hd : st.fresh.Distinct)
    (hunused : ∀ v ∈ d.paramVars, ¬ st.fresh.Upcoming (.type v))
    (h : renewTypes .empty d.paramVars st = .ok s st') :
    Draws st st' ∧ ∀ t : Ty, t.RowsSorted → t.Over (IsParam d) →
      (s.apply t).Usable st'.fresh ∧ (s.apply t).Over (st.fresh.HandedOut st'.fresh) := by
  obtain ⟨hdraws, hrenames, -, hbinds⟩ := renewTypes_ok (Q := IsParam d) hd (.refl _)
    Subst.renames_empty (fun v hv => ⟨v, hv, rfl⟩) h
  have hQ : ∀ x, IsParam d x → ¬ st.fresh.Upcoming x := by
    rintro x ⟨v, hv, rfl⟩
    exact hunused v hv
  refine ⟨hdraws, fun t hsorted hover => ?_⟩
  -- all variables of the type are parameters, so all of them are renamed
  have hbound : ∀ x ∈ t.occurrences, s.Binds x := by
    intro x hx
    obtain ⟨v, hv, rfl⟩ := hover x hx
    exact hbinds v hv
  exact ⟨hrenames.apply_usable hQ hsorted fun x hx => .inl (hbound x hx),
    hrenames.apply_over hQ (fun x hx => hx) fun x hx => .inl (hbound x hx)⟩

mutual

/-- An accepted pattern fits what its type comes to stand for. -/
theorem pattern_ok (p : Pattern) {st st' : InferState} {t : Ty} {u : Unit}
    (hst : st.subst.Valid st.fresh) (hreg : reg.Usable st.fresh) (ht : t.Usable st.fresh)
    (h : pattern reg p t st = .ok u st') :
    ∃ bindings, BindsNames st st' t.Over bindings ∧
      ∀ U : Valuation, U.Absorbs st'.subst → p.Fits reg (t.under U) (U.bindings bindings) := by
  cases p with
  | wildcard span =>
    obtain ⟨-, rfl⟩ := pure_eq_ok.mp h
    exact ⟨[], .of_runs (.refl hst fun _ h => h), fun U _ => .wildcard⟩
  | var span name =>
    exact ⟨[(name, t)], bindMono_ok hst ht h, fun U _ => .var⟩
  | lit span value =>
    obtain ⟨hruns, heq⟩ := unify_ok hst ht value.usable_type h
    refine ⟨[], .of_runs (hruns.imp (fun P hP => ⟨hP, value.over_type⟩) fun _ _ _ h => h),
      fun U hU => ?_⟩
    rw [heq U hU, Literal.under_type]
    exact .lit
  | constructor span name args =>
    simp only [pattern] at h
    rcases hc : reg.dataTypes.constructor? name with _ | ⟨d, c⟩
    · simp only [hc, throw_eq_ok] at h
    simp only [hc] at h
    by_cases hlength : c.fields.length = args.length
    swap
    · simp only [ne_eq, hlength, not_false_eq_true, if_true, bind_eq_ok, throw_eq_ok, false_and,
        exists_false] at h
    simp only [hlength, ne_eq, not_true_eq_false, if_false, bind_eq_ok] at h
    -- the parameters are renamed, the result is unified, then the fields are matched
    obtain ⟨s, st₁, hs, _, st₂, hunify, h⟩ := h
    obtain ⟨hdraws, hrenewed⟩ := renewed_ok hst.distinct (hreg.params hc) hs
    obtain ⟨hresult, hresultOver⟩ :=
      hrenewed d.resultType (resultType_sorted d) (resultType_over d)
    obtain ⟨hruns, heq⟩ := unify_ok (hdraws.valid hst) (ht.later hdraws.later) hresult hunify
    have hfields : ∀ t ∈ c.fields.map s.apply,
        t.Usable st₁.fresh ∧ t.Over (st.fresh.HandedOut st₁.fresh) := by
      intro t' ht'
      obtain ⟨t₀, ht₀, rfl⟩ := mem_map.mp ht'
      exact hrenewed t₀ (hreg.sorted hc t₀ ht₀) (hreg.fields hc t₀ ht₀)
    have hlater := hdraws.later.trans hruns.later
    obtain ⟨bindings, hbinds, hfits⟩ := patterns_ok args hruns.valid (hreg.later hlater)
      (fun t ht => (hfields t ht).1.later hruns.later) (by simp [hlength]) h
    have hdrawn := hdraws.runs hst (I := t.Over)
      (O := fun P => t.Over P ∧ (s.apply d.resultType).Over P ∧
        ∀ t ∈ c.fields.map s.apply, t.Over P) fun P hP hover =>
      ⟨hover, hresultOver.mono fun _ hx => hP.upcoming hx.1,
        fun t ht => (hfields t ht).2.mono fun _ hx => hP.upcoming hx.1⟩
    refine ⟨bindings, .after (hdrawn.trans hruns fun P _ hO => ⟨hO.1, hO.2.1⟩) hbinds
      fun P _ hO => hO.1.2.2, fun U hU => ?_⟩
    -- the arguments of the data type are what the renamed parameters stand for
    have hfields' : (c.fields.map s.apply).map (·.under U) =
        c.fields.map (·.under (s.valuation.andThen U)) := by
      rw [map_map]
      exact map_congr_left fun t _ => (Ty.under_andThen s.valuation U t).symm
    rw [heq U (hbinds.advances.absorbs hruns.valid hU), Subst.apply_eq_under,
      ← Ty.under_andThen]
    exact .constructor _ hc (hfields' ▸ hfits U hU)
  | tuple span elems =>
    simp only [pattern, bind_eq_ok] at h
    obtain ⟨ts, st₁, hfresh, _, st₂, hunify, h⟩ := h
    obtain ⟨hdraws, hlength, hts⟩ := freshTypes_ok hst.distinct hfresh
    have htsUsable : ∀ t ∈ ts, t.Usable st₁.fresh := fun t ht => usable_of_handedOut (hts t ht)
    obtain ⟨hruns, heq⟩ := unify_ok (hdraws.valid hst) (ht.later hdraws.later)
      (Ty.usable_tuple htsUsable) hunify
    obtain ⟨bindings, hbinds, hfits⟩ := patterns_ok elems hruns.valid
      (hreg.later (hdraws.later.trans hruns.later))
      (fun t ht => (htsUsable t ht).later hruns.later) hlength.symm h
    have hdrawn := hdraws.runs hst (I := t.Over)
      (O := fun P => t.Over P ∧ ∀ t ∈ ts, t.Over P) fun P hP hover =>
      ⟨hover, fun t ht => over_of_handedOut hP (hts t ht)⟩
    refine ⟨bindings, .after (hdrawn.trans hruns fun P _ hO =>
      ⟨hO.1, Ty.over_tuple.mpr hO.2⟩) hbinds fun P _ hO => hO.1.2, fun U hU => ?_⟩
    rw [heq U (hbinds.advances.absorbs hruns.valid hU), Ty.under_tuple]
    exact .tuple (hfits U hU)

theorem patterns_ok (ps : List Pattern) {st st' : InferState} {ts : List Ty} {u : Unit}
    (hst : st.subst.Valid st.fresh) (hreg : reg.Usable st.fresh)
    (hts : ∀ t ∈ ts, t.Usable st.fresh) (hlength : ps.length = ts.length)
    (h : patterns reg ps ts st = .ok u st') :
    ∃ bindings, BindsNames st st' (fun P => ∀ t ∈ ts, t.Over P) bindings ∧
      ∀ U : Valuation, U.Absorbs st'.subst →
        Pattern.FitsAll reg ps (ts.map (·.under U)) (U.bindings bindings) := by
  cases ps with
  | nil =>
    obtain rfl := length_eq_zero_iff.mp hlength.symm
    obtain ⟨-, rfl⟩ := pure_eq_ok.mp h
    exact ⟨[], .of_runs (.refl hst fun _ h => h), fun U _ => .nil⟩
  | cons p ps =>
    rcases ts with _ | ⟨t, ts⟩
    · cases hlength
    simp only [patterns, bind_eq_ok] at h
    obtain ⟨_, st₁, hp, h⟩ := h
    rw [forall_mem_cons] at hts
    obtain ⟨first, hfirst, hfits₁⟩ := pattern_ok p hst hreg hts.1 hp
    have hlater := hfirst.advances.later
    obtain ⟨rest, hrest, hfits⟩ := patterns_ok ps hfirst.advances.valid (hreg.later hlater)
      (fun t ht => (hts.2 t ht).later hlater) (by simpa using hlength) h
    have hfirst' : BindsNames st st₁ (fun P => ∀ t' ∈ t :: ts, t'.Over P) first :=
      ⟨hfirst.advances.imp (fun P hP => hP t (.head _)) fun _ _ _ h => h, hfirst.env,
        hfirst.unsettled, hfirst.usable⟩
    refine ⟨first ++ rest, hfirst'.trans hrest fun P hP t' ht' =>
      hP t' (.tail _ ht'), fun U hU => ?_⟩
    rw [Valuation.bindings_append]
    exact .cons (hfits₁ U (hrest.advances.absorbs hfirst.advances.valid hU)) (hfits U hU)

end

/-- Parameters fit the fresh types they are given. -/
theorem parameters_ok {ps : List Pattern} {ts : List Ty} (hst : st.subst.Valid st.fresh)
    (hreg : reg.Usable st.fresh) (h : parameters reg ps st = .ok ts st') :
    (∀ t ∈ ts, t.Usable st'.fresh) ∧ (∀ P, st.Inside P → ∀ t ∈ ts, t.Over P) ∧
      ∃ bindings, BindsNames st st' (fun _ => True) bindings ∧
        ∀ U : Valuation, U.Absorbs st'.subst →
          Pattern.FitsAll reg ps (ts.map (·.under U)) (U.bindings bindings) := by
  induction ps generalizing st ts with
  | nil =>
    obtain ⟨rfl, rfl⟩ := pure_eq_ok.mp h
    exact ⟨by simp, by simp, [], .of_runs (.refl hst fun _ h => h), fun U _ => .nil⟩
  | cons p ps ih =>
    simp only [parameters, bind_eq_ok, pure_eq_ok] at h
    obtain ⟨t, st₁, hfresh, _, st₂, hp, ts, st₃, hps, rfl, rfl⟩ := h
    obtain ⟨hdraws, ht⟩ := freshType_ok hst.distinct hfresh
    obtain ⟨first, hfirst, hfits₁⟩ :=
      pattern_ok p (hdraws.valid hst) (hreg.later hdraws.later) (usable_of_handedOut ht) hp
    have hlater := hfirst.advances.later
    obtain ⟨husable, hover, rest, hrest, hfits⟩ :=
      ih hfirst.advances.valid (hreg.later (hdraws.later.trans hlater)) hps
    have hdrawn := hdraws.runs hst (I := fun _ => True) (O := t.Over)
      fun P hP _ => over_of_handedOut hP ht
    have hfirst' : BindsNames st st₂ (fun _ => True) first :=
      .after hdrawn hfirst fun P _ hO => hO
    refine ⟨forall_mem_cons.mpr
      ⟨(usable_of_handedOut ht).later (hlater.trans hrest.advances.later), husable⟩,
      fun P hP => ?_, first ++ rest, hfirst'.trans hrest fun _ h => h, fun U hU => ?_⟩
    · exact forall_mem_cons.mpr ⟨over_of_handedOut hP ht,
        hover P (hfirst'.advances.inside P hP trivial).1⟩
    · rw [Valuation.bindings_append]
      exact .cons (hfits₁ U (hrest.advances.absorbs hfirst.advances.valid hU)) (hfits U hU)

end Infer

end RowTyping
