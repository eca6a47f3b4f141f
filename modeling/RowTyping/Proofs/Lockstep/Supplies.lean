import RowTyping.Proofs.Lockstep.Scope
import RowTyping.Proofs.Pool

/-!
# Matching supplies

Two supplies that draw increasing ids give a matching that preserves the order of ids: what they
hand out in turn matches, and so does every variable below both of them with itself
(`Matching.ofSupplies`). Environments and registries that mention such variables only match
themselves.
-/

namespace RowTyping

open List

/-- The variable lies below all that the supply will hand out. -/
def Fresh.Above (f : Fresh) : Var → Prop
  | .type v => ∀ n, v.id < f.upcomingTypes n
  | .effect e => ∀ n, e.id < f.upcomingEffects n

namespace Matching

/-- Ids match that are the same and from a set that lies below both sequences, or that stand at the
same place of the two sequences. -/
def IdsMatch (known : Nat → Prop) (draws draws' : Nat → Nat) (i i' : Nat) : Prop :=
  i = i' ∧ known i ∨ ∃ n, i = draws n ∧ i' = draws' n

theorem IdsMatch.lt_iff {known : Nat → Prop} {draws draws' : Nat → Nat} (hdraws : StrictMono draws)
    (hdraws' : StrictMono draws') (hknown : ∀ i, known i → ∀ n, i < draws n ∧ i < draws' n)
    {i i' j j' : Nat} (hi : IdsMatch known draws draws' i i')
    (hj : IdsMatch known draws draws' j j') :
    i < j ↔ i' < j' := by
  rcases hi with ⟨rfl, hi⟩ | ⟨n, rfl, rfl⟩ <;> rcases hj with ⟨rfl, hj⟩ | ⟨m, rfl, rfl⟩
  · rfl
  · have := hknown i hi m
    omega
  · have := hknown j hj n
    omega
  · rw [hdraws.lt_iff_lt, hdraws'.lt_iff_lt]

private theorem biUnique_of_lt_iff {α : Type} {R : α → α → Prop} {id : α → Nat}
    (hid : Function.Injective id)
    (h : ∀ {a a' b b'}, R a a' → R b b' → (id a < id b ↔ id a' < id b')) : Relator.BiUnique R := by
  constructor
  · intro a b c hac hbc
    have hlt := h hac hbc
    have hgt := h hbc hac
    exact hid (by omega)
  · intro a b c hab hac
    have hlt := h hab hac
    have hgt := h hac hab
    exact hid (by omega)

variable {f f' : Fresh} {known : Var → Prop}

private theorem lt_of_known (hknown : ∀ x, known x → f.Above x ∧ f'.Above x) (i : Nat) :
    (known (.type ⟨i⟩) → ∀ n, i < f.upcomingTypes n ∧ i < f'.upcomingTypes n) ∧
      (known (.effect ⟨i⟩) → ∀ n, i < f.upcomingEffects n ∧ i < f'.upcomingEffects n) :=
  ⟨fun hi n => ⟨(hknown (.type ⟨i⟩) hi).1 n, (hknown (.type ⟨i⟩) hi).2 n⟩,
    fun hi n => ⟨(hknown (.effect ⟨i⟩) hi).1 n, (hknown (.effect ⟨i⟩) hi).2 n⟩⟩

/-- The matching of known variables with themselves and of variables that two supplies hand out in
turn. -/
def ofSupplies (hf : f.Pooled) (hf' : f'.Pooled) (hknown : ∀ x, known x → f.Above x ∧ f'.Above x) :
    Matching where
  types v v' := IdsMatch (fun i => known (.type ⟨i⟩)) f.upcomingTypes f'.upcomingTypes v.id v'.id
  effects e e' :=
    IdsMatch (fun i => known (.effect ⟨i⟩)) f.upcomingEffects f'.upcomingEffects e.id e'.id
  biUnique_types := biUnique_of_lt_iff (fun v w h => by cases v; cases w; exact congrArg _ h)
    (IdsMatch.lt_iff hf.types.strictMono_upcoming hf'.types.strictMono_upcoming
      fun i => (lt_of_known hknown i).1)
  biUnique_effects := biUnique_of_lt_iff (fun e g h => by cases e; cases g; exact congrArg _ h)
    (IdsMatch.lt_iff hf.effects.strictMono_upcoming hf'.effects.strictMono_upcoming
      fun i => (lt_of_known hknown i).2)

variable (hf : f.Pooled) (hf' : f'.Pooled) (hknown : ∀ x, known x → f.Above x ∧ f'.Above x)

theorem increasing_ofSupplies : (ofSupplies hf hf' hknown).Increasing where
  types := IdsMatch.lt_iff hf.types.strictMono_upcoming hf'.types.strictMono_upcoming
    fun i => (lt_of_known hknown i).1
  effects := IdsMatch.lt_iff hf.effects.strictMono_upcoming hf'.effects.strictMono_upcoming
    fun i => (lt_of_known hknown i).2

theorem supplies_ofSupplies : (ofSupplies hf hf' hknown).Supplies f f' :=
  ⟨fun n => .inr ⟨n, rfl, rfl⟩, fun n => .inr ⟨n, rfl, rfl⟩⟩

theorem vars_ofSupplies {x : Var} (hx : known x) : (ofSupplies hf hf' hknown).Vars x x := by
  cases x with
  | type v => exact .type (.inl ⟨rfl, hx⟩)
  | effect e => exact .effect (.inl ⟨rfl, hx⟩)

end Matching

/-- The next block of its kind starts above the variable. -/
def Pool.Above (pool : Pool) : Var → Prop
  | .type v => v.id < pool.types.start pool.types.taken
  | .effect e => e.id < pool.effects.start pool.effects.taken

instance (pool : Pool) : DecidablePred pool.Above
  | .type _ => Nat.decLt ..
  | .effect _ => Nat.decLt ..

theorem Pool.Spaced.above_ready {pool : Pool} (h : pool.Spaced) {x : Var} (hx : pool.Above x) :
    pool.ready.Above x := by
  have hready := Fresh.pooled_ready h
  have hfirst {blocks : Blocks} (hblocks : IdRange.exhausted.Below blocks) (n : Nat) :
      blocks.start blocks.taken ≤ IdRange.exhausted.upcoming blocks n := by
    refine le_trans (le_of_eq ?_) (hblocks.strictMono_upcoming.monotone (Nat.zero_le n))
    rw [IdRange.upcoming, IdRange.draw_exhausted]
  cases x with
  | type v => exact fun n => Nat.lt_of_lt_of_le hx (hfirst hready.types n)
  | effect e => exact fun n => Nat.lt_of_lt_of_le hx (hfirst hready.effects n)

theorem Fresh.Above.later {f f' : Fresh} {x : Var} (hx : f.Above x) (h : f.Later f') :
    f'.Above x := by
  cases x with
  | type v =>
    intro n
    obtain ⟨m, hm⟩ := h.upcoming (x := .type ⟨f'.upcomingTypes n⟩) ⟨n, rfl⟩
    exact Nat.lt_of_lt_of_eq (hx m) hm
  | effect e =>
    intro n
    obtain ⟨m, hm⟩ := h.upcoming (x := .effect ⟨f'.upcomingEffects n⟩) ⟨n, rfl⟩
    exact Nat.lt_of_lt_of_eq (hx m) hm

/-! ## Variables of environments and registries -/

/-- The variables that a scheme mentions, bound or free. -/
def Scheme.mentioned (σ : Scheme) : List Var :=
  σ.typeVars.map .type ++ σ.effectVars.map .effect ++ σ.names.types.keys.map .type ++
    σ.names.effects.keys.map .effect ++ σ.givens.flatMap (·.type.occurrences) ++ σ.type.occurrences

/-- The variables that an environment mentions. -/
def Env.mentioned (env : Env) : List Var :=
  (env.globals.values ++ env.scopes.flatMap (·.values)).flatMap (·.mentioned)

/-- The variables that a data type mentions. -/
def DataType.mentioned (d : DataType) : List Var :=
  d.paramVars.map .type ++ d.constructors.flatMap fun c => c.fields.flatMap (·.occurrences)

/-- The variables that data types mention. Those of traits play no part in inference, since
requirements are decided by the names of traits and type constructors. -/
def Registry.mentioned (reg : Registry) : List Var :=
  reg.dataTypes.types.values.flatMap (·.mentioned)

namespace Matching

variable {ρ : Matching}

theorem names_refl {names : VarNames} (htypes : ∀ v ∈ names.types.keys, ρ.types v v)
    (heffects : ∀ e ∈ names.effects.keys, ρ.effects e e) : ρ.Names names names where
  types := forall₂_same.mpr fun _ hentry => ⟨htypes _ (mem_map_of_mem hentry), rfl⟩
  effects := forall₂_same.mpr fun _ hentry => ⟨heffects _ (mem_map_of_mem hentry), rfl⟩

/-- A scheme matches itself if all its variables do. -/
theorem schemes_refl {σ : Scheme} (h : ∀ x ∈ σ.mentioned, ρ.Vars x x) : ρ.Schemes σ σ := by
  simp only [Scheme.mentioned, mem_append, mem_map, mem_flatMap] at h
  refine ⟨forall₂_same.mpr fun v hv => ?_, forall₂_same.mpr fun e he => ?_,
    forall₂_same.mpr fun g hg => ⟨rfl, types_refl fun x hx => h x ?_⟩,
    names_refl (fun v hv => ?_) fun e he => ?_, types_refl fun x hx => h x (.inr hx)⟩
  · exact vars_type.mp (h _ (by simp [hv]))
  · exact vars_effect.mp (h _ (by simp [he]))
  · exact .inl (.inr ⟨g, hg, hx⟩)
  · exact vars_type.mp (h _ (by simp [hv]))
  · exact vars_effect.mp (h _ (by simp [he]))

/-- An environment matches itself if all its variables do. -/
theorem envs_refl {env : Env} (h : ∀ x ∈ env.mentioned, ρ.Vars x x) : ρ.Envs [] [] env env := by
  have hscheme {σ : Scheme} (hσ : σ ∈ env.globals.values ++ env.scopes.flatMap (·.values)) :
      ρ.Schemes σ σ := schemes_refl fun x hx => h x (mem_flatMap.mpr ⟨σ, hσ, hx⟩)
  refine ⟨fun name _ => ?_, ⟨env.scopes, [], ?_, by simp, by simp⟩, by simp⟩
  · rcases hσ : env.globals.get? name with _ | σ
    · exact .none
    · exact .some (hscheme (mem_append_left _ (Dict.mem_values_of_get? hσ))).uses
  · refine forall₂_same.mpr fun scope hscope => forall₂_same.mpr fun entry hentry => ⟨rfl, ?_⟩
    exact hscheme (mem_append_right _
      (mem_flatMap.mpr ⟨scope, hscope, mem_map_of_mem hentry⟩))

theorem keeps_of_mentioned (hρ : ρ.Increasing) {reg : Registry}
    (h : ∀ x ∈ reg.mentioned, ρ.Vars x x) : ρ.Keeps reg := by
  have hdata {name : String} {d : DataType} (hd : reg.dataTypes.get? name = some d) :
      ∀ x ∈ d.mentioned, ρ.Vars x x :=
    fun x hx => h x (mem_flatMap.mpr ⟨d, Dict.mem_values_of_get? hd, hx⟩)
  refine
    { hρ with params := fun hd v hv => ?_, fields := fun hd c hc t ht => types_refl fun x hx => ?_ }
  · exact vars_type.mp (hdata hd _ (mem_append_left _ (mem_map_of_mem hv)))
  · exact hdata hd x (mem_append_right _
      (mem_flatMap.mpr ⟨c, hc, mem_flatMap.mpr ⟨t, ht, hx⟩⟩))

/-- Two pools whose blocks to come lie above known variables lead to a matching that keeps these. -/
theorem exists_matching {pool pool' : Pool} (hpool : pool.Spaced) (hpool' : pool'.Spaced)
    {known : List Var} (hknown : ∀ x ∈ known, pool.ready.Above x ∧ pool'.ready.Above x) :
    ∃ ρ : Matching, ρ.Increasing ∧ (∀ x ∈ known, ρ.Vars x x) ∧
    ρ.Supplies pool.ready pool'.ready := by
  have hf := Fresh.pooled_ready hpool
  have hf' := Fresh.pooled_ready hpool'
  exact ⟨ofSupplies hf hf' hknown, increasing_ofSupplies hf hf' hknown,
    fun x hx => vars_ofSupplies hf hf' hknown hx, supplies_ofSupplies hf hf' hknown⟩

/-- For names that are in use, an environment is as good as one that has only globals, with schemes
that are used alike. -/
theorem exists_envs {names : List String} {used : Dict String Scheme} {env : Env}
    (hscopes : env.scopes = [])
    (h : ∀ n ∈ names, ∃ σ σ', used.get? n = some σ ∧ env.globals.get? n = some σ' ∧ ρ.Uses σ σ') :
    ∃ hidden, names.Disjoint hidden ∧ ρ.Envs hidden [] { globals := used } env := by
  refine ⟨(used.keys ++ env.globals.keys).filter (!names.contains ·), fun n hn hhidden => ?_,
    fun n hn => ?_,
    ⟨[], [], .nil, nofun, hscopes⟩, nofun⟩
  · simp [hn] at hhidden
  · by_cases hname : n ∈ names
    · obtain ⟨σ, σ', hσ, hσ', huses⟩ := h n hname
      rw [hσ, hσ']
      exact .some huses
    · have hnone {d : Dict String Scheme}
        (hkeys : ∀ n ∈ d.keys, n ∈ used.keys ++ env.globals.keys) :
          d.get? n = none := by
        by_contra hsome
        obtain ⟨σ, hσ⟩ := Option.ne_none_iff_exists'.mp hsome
        exact hn (mem_filter.mpr ⟨hkeys n (Dict.mem_keys_of_get? hσ), by simp [hname]⟩)
      rw [hnone fun n hn => mem_append_left _ hn, hnone fun n hn => mem_append_right _ hn]
      exact .none

end Matching

end RowTyping
