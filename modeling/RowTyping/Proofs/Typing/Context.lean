import RowTyping.Proofs.Substitution
import RowTyping.Proofs.Typing.Rules

/-!
# Contexts of environments

What the typing rules read from a context changes in step with the environment it comes from:
binding names in the environment binds them in the context (`Env.under_bindAll`), and only what the
free variables of the schemes stand for matters (`Env.under_congr`). A written type that describes a
type describes it under every valuation (`TypeExpr.Describes.under`).
-/

namespace RowTyping

open List

/-! ## Written types under a valuation -/

/-- The meanings of names under a valuation. -/
def Naming.under (ν : Naming) (V : Valuation) : Naming where
  types name := (ν.types name).under V
  effects name := (ν.effects name).under V

section Written

variable {reg : Registry} {ν : Naming} (V : Valuation)

theorem EffectExpr.row?_under {effect : EffectExpr} {r : Row} (h : effect.row? reg ν = some r) :
    effect.row? reg (ν.under V) = some (r.under V) := by
  cases effect with
  | pure =>
    obtain rfl := Option.some.inj h
    rfl
  | var name =>
    obtain rfl := Option.some.inj h
    rfl
  | row labels rest =>
    simp only [row?] at h ⊢
    split at h
    · rename_i hlabels
      rw [if_pos hlabels]
      rcases rest with _ | name
      · obtain rfl := Option.some.inj h
        rfl
      · obtain rfl := Option.some.inj h
        -- the labels of the tail come in before or after those it stands for
        simp only [Naming.under]
        rcases ν.effects name with ⟨tailLabels, _ | e⟩
        · rfl
        · rcases he : V.effects e with _ | rest
          · simp [Row.under, Row.subst, he]
          · simp [Row.under, Row.subst, he, Sorted.ofList_append_ofList]
    · cases h

namespace TypeExpr

theorem ofName?_under {name : String} {args : List Ty} {t : Ty}
    (h : ofName? reg ν name args = some t) :
    ofName? reg (ν.under V) name (args.map (·.under V)) = some (t.under V) := by
  simp only [ofName?] at h ⊢
  split at h
  · rename_i hname
    obtain rfl := Option.some.inj h
    rw [if_pos hname, Ty.under_applyTo]
    rfl
  · rename_i hname
    rw [if_neg hname]
    split at h
    · split at h
      · rename_i hargs
        obtain rfl := Option.some.inj h
        simpa using hargs
      · cases h
    · split at h
      · rename_i harity
        obtain rfl := Option.some.inj h
        simp [harity]
      · cases h

mutual

theorem type?_under (written : TypeExpr) {t : Ty} (h : written.type? reg ν = some t) :
    written.type? reg (ν.under V) = some (t.under V) := by
  cases written with
  | named name => exact ofName?_under V h
  | applied name args =>
    simp only [type?, Option.bind_eq_bind, Option.bind_eq_some_iff] at h ⊢
    obtain ⟨ts, hts, h⟩ := h
    exact ⟨ts.map (·.under V), types?_under args hts, ofName?_under V h⟩
  | function params result effect =>
    simp only [type?, Option.bind_eq_bind, Option.bind_eq_some_iff, Option.pure_def,
      Option.some.injEq] at h ⊢
    obtain ⟨ts, hts, t₁, ht₁, r, hr, rfl⟩ := h
    exact ⟨_, types?_under params hts, _, type?_under result ht₁, _, effect.row?_under V hr,
      (Ty.under_fn V ts t₁ r).symm⟩
  | tuple elems =>
    simp only [type?, Option.bind_eq_bind, Option.bind_eq_some_iff, Option.pure_def,
      Option.some.injEq] at h ⊢
    obtain ⟨ts, hts, rfl⟩ := h
    exact ⟨_, types?_under elems hts, (Ty.under_tuple V ts).symm⟩

theorem types?_under (written : List TypeExpr) {ts : List Ty} (h : types? reg ν written = some ts) :
    types? reg (ν.under V) written = some (ts.map (·.under V)) := by
  cases written with
  | nil =>
    obtain rfl := Option.some.inj h
    rfl
  | cons w ws =>
    simp only [types?, Option.bind_eq_bind, Option.bind_eq_some_iff, Option.pure_def,
      Option.some.injEq] at h ⊢
    obtain ⟨t, ht, ts, hts, rfl⟩ := h
    exact ⟨_, type?_under w ht, _, types?_under ws hts, rfl⟩

end

/-- What describes a type describes it also after its variables are replaced. -/
theorem Describes.under {written : TypeExpr} {t : Ty} (h : written.Describes reg t)
    (V : Valuation) : written.Describes reg (t.under V) := by
  obtain ⟨ν, hν⟩ := h
  exact ⟨ν.under V, type?_under V written hν⟩

end TypeExpr

end Written

/-! ## Schemes -/

namespace Scheme

/-- The variable occurs in the type of the scheme and is not quantified. -/
def Free (σ : Scheme) (x : Var) : Prop :=
  x ∈ σ.type.occurrences ∧ x ∉ σ.quantified

variable {σ : Scheme} {V W : Valuation}

theorem mem_quantified_type {v : TypeVar} : .type v ∈ σ.quantified ↔ v ∈ σ.typeVars := by
  simp [quantified, Sorted.mem_ofList]

theorem mem_quantified_effect {e : EffectVar} : .effect e ∈ σ.quantified ↔ e ∈ σ.effectVars := by
  simp [quantified, Sorted.mem_ofList]

theorem under_mono (t : Ty) : (mono t).under V = .mono (t.under V) := rfl

open Classical in
/-- Instances depend only on what the free variables stand for. -/
theorem HasInstance.congr {t : Ty} (h : ∀ x, σ.Free x → V.AgreesAt W x)
    (ht : σ.HasInstance V t) : σ.HasInstance W t := by
  obtain ⟨V', hV', rfl⟩ := ht
  -- quantified variables keep their new meanings, all others get the one `W` gives
  let W' : Valuation :=
    ⟨fun v => if .type v ∈ σ.quantified then V'.types v else W.types v,
      fun e => if .effect e ∈ σ.quantified then V'.effects e else W.effects e⟩
  have hin {x : Var} (hx : x ∈ σ.quantified) : W'.AgreesAt V' x := by
    cases x <;> simp [W', Valuation.AgreesAt, hx]
  have hout {x : Var} (hx : x ∉ σ.quantified) : W'.AgreesAt W x := by
    cases x <;> simp [W', Valuation.AgreesAt, hx]
  refine ⟨W', fun x hx => hout hx, Ty.under_congr fun x hx => ?_⟩
  by_cases hq : x ∈ σ.quantified
  · exact (hin hq).symm
  · exact (hV' x hq).trans ((h x ⟨hx, hq⟩).trans (hout hq).symm)

theorem hasInstance_congr (h : ∀ x, σ.Free x → V.AgreesAt W x) :
    σ.HasInstance V = σ.HasInstance W :=
  funext fun _ => propext ⟨.congr h, .congr fun x hx => (h x hx).symm⟩

/-- A scheme says the same under valuations that agree at its free variables. -/
theorem under_congr (h : ∀ x, σ.Free x → V.AgreesAt W x) : σ.under V = σ.under W := by
  have hinstance := hasInstance_congr h
  simp only [under, OpensTo, hinstance]
  split
  · rename_i hplain
    obtain ⟨⟨htypes, heffects⟩, -⟩ :
        (σ.typeVars = [] ∧ σ.effectVars = []) ∧ σ.givens = [] := by
      simpa [isMono] using hplain
    have hquantified (x : Var) : x ∉ σ.quantified := by simp [quantified, htypes, heffects]
    rw [Ty.under_congr fun x hx => h x ⟨hx, hquantified x⟩]
  · rfl

/-- What a scheme stands for is an instance. -/
theorem hasInstance_of_instances {t : Ty} (h : (σ.under V).instances t) : σ.HasInstance V t := by
  simp only [under] at h
  split at h
  · exact ⟨V, fun x _ => .refl V x, h⟩
  · exact h

end Scheme

/-! ## Environments -/

/-- Types of names under a valuation. -/
def Valuation.bindings (V : Valuation) (bindings : List (String × Ty)) : List (String × Ty) :=
  bindings.map fun b => (b.1, b.2.under V)

theorem Valuation.bindings_append (V : Valuation) (first rest : List (String × Ty)) :
    V.bindings (first ++ rest) = V.bindings first ++ V.bindings rest :=
  map_append

namespace Env

/-- The schemes of the local scopes. -/
def locals (env : Env) : List Scheme :=
  env.scopes.flatMap (·.values)

/-- Give types to names in the innermost scope, from left to right. -/
def bindAll (env : Env) (bindings : List (String × Ty)) : Env :=
  bindings.foldl (fun env b => env.bind b.1 (.mono b.2)) env

variable {env : Env} {V W : Valuation} {name : String} {σ : Scheme}

/-- Binding a name adds at most its scheme to the local scopes. -/
theorem mem_locals_bind {τ : Scheme} (h : τ ∈ (env.bind name σ).locals) :
    τ = σ ∨ τ ∈ env.locals := by
  obtain ⟨globals, _ | ⟨scope, outer⟩⟩ := env
  · exact .inl (mem_singleton.mp h)
  · rcases mem_append.mp h with h | h
    · exact (Dict.mem_values_insert h).imp_right (mem_append_left _)
    · exact .inr (mem_append_right _ h)

theorem mem_locals_bindAll {bindings : List (String × Ty)} {τ : Scheme}
    (h : τ ∈ (env.bindAll bindings).locals) :
    (∃ b ∈ bindings, τ = .mono b.2) ∨ τ ∈ env.locals := by
  induction bindings generalizing env with
  | nil => exact .inr h
  | cons b bindings ih =>
    rcases ih h with ⟨b', hb', rfl⟩ | h
    · exact .inl ⟨b', .tail _ hb', rfl⟩
    · exact (mem_locals_bind h).imp_left fun h => ⟨b, .head _, h⟩

@[simp]
theorem globals_bind (name : String) (σ : Scheme) : (env.bind name σ).globals = env.globals := by
  obtain ⟨globals, _ | ⟨scope, outer⟩⟩ := env <;> rfl

@[simp]
theorem globals_bindAll (bindings : List (String × Ty)) :
    (env.bindAll bindings).globals = env.globals := by
  induction bindings generalizing env with
  | nil => rfl
  | cons b bindings ih => exact ih.trans (globals_bind _ _)

/-- Closing a scope in which a name was bound leaves what was there before. -/
theorem pop_bind (h : env.scopes ≠ []) :
    (env.bind name σ).pop = env.pop ∧ (env.bind name σ).scopes ≠ [] := by
  obtain ⟨globals, _ | ⟨scope, outer⟩⟩ := env
  · exact (h rfl).elim
  · exact ⟨rfl, cons_ne_nil _ _⟩

theorem pop_push_bindAll (bindings : List (String × Ty)) :
    (env.push.bindAll bindings).pop = env := by
  have hpop (inner : Env) (h : inner.scopes ≠ []) : (inner.bindAll bindings).pop = inner.pop := by
    induction bindings generalizing inner with
    | nil => rfl
    | cons b bindings ih =>
      exact (ih _ (pop_bind h).2).trans (pop_bind h).1
  exact hpop env.push (cons_ne_nil _ _)

/-- A name has a type from a local scope or from the whole module. -/
theorem get?_eq_some (h : env.get? name = some σ) :
    σ ∈ env.locals ∨ env.globals.get? name = some σ := by
  rw [get?, Option.or_eq_some_iff] at h
  rcases h with h | ⟨-, h⟩
  · obtain ⟨scope, hscope, hσ⟩ := exists_of_findSome?_eq_some h
    exact .inl (mem_flatMap.mpr ⟨scope, hscope, Dict.mem_values_of_get? hσ⟩)
  · exact .inr h

theorem get?_bind (name name' : String) (σ : Scheme) :
    (env.bind name σ).get? name' = if name' = name then some σ else env.get? name' := by
  obtain ⟨globals, _ | ⟨scope, outer⟩⟩ := env
  · by_cases h : name' = name <;> simp [bind, get?, List.findSome?, h]
  · by_cases h : name' = name <;> simp [bind, get?, List.findSome?, h]

@[simp]
theorem get?_push (name : String) : env.push.get? name = env.get? name := by
  simp [push, get?, List.findSome?]

/-- Binding a name in an environment binds it in its context. -/
theorem under_bind (name : String) (σ : Scheme) :
    (env.bind name σ).under V = (env.under V).bind name (σ.under V) := by
  funext name'
  simp only [under, get?_bind, Context.bind]
  split <;> rfl

theorem under_push : env.push.under V = env.under V := by
  funext name
  simp [under]

theorem bindAll_append (first rest : List (String × Ty)) :
    env.bindAll (first ++ rest) = (env.bindAll first).bindAll rest :=
  foldl_append

theorem under_bindAll (bindings : List (String × Ty)) :
    (env.bindAll bindings).under V = (env.under V).bindAll (V.bindings bindings) := by
  induction bindings generalizing env with
  | nil => rfl
  | cons b bindings ih =>
    change ((env.bind b.1 (.mono b.2)).bindAll bindings).under V = _
    rw [ih, under_bind, Scheme.under_mono]
    rfl

/-- Only what the free variables of the schemes stand for matters for the context. -/
theorem under_congr
    (h : ∀ name σ, env.get? name = some σ → ∀ x, σ.Free x → V.AgreesAt W x) :
    env.under V = env.under W := by
  funext name
  rcases hσ : env.get? name with _ | σ
  · simp [under, hσ]
  · simp [under, hσ, Scheme.under_congr (h name σ hσ)]

end Env

end RowTyping
