import RowTyping.Types.Subst

/-!
# How substitution changes variables and sizes

Replacing the variables of a type leaves only variables of the replacements, and bringing
applications into normal form never makes a type larger. Unification terminates because of these
facts.
-/

namespace RowTyping.Ty

theorem occurrencesAll_append (ts us : List Ty) :
    occurrencesAll (ts ++ us) = occurrencesAll ts ++ occurrencesAll us := by
  induction ts with
  | nil => simp [occurrencesAll]
  | cons t ts ih => simp [occurrencesAll, ih]

theorem mem_occurrencesAll {x : Var} {ts : List Ty} :
    x ∈ occurrencesAll ts ↔ ∃ t ∈ ts, x ∈ t.occurrences := by
  induction ts with
  | nil => simp [occurrencesAll]
  | cons t ts ih => simp [occurrencesAll, ih]

/-- The type variables of `applyTo` are those of the head and of the arguments. -/
theorem mem_occurrences_applyTo {x : Var} {head : Ty} {args : List Ty} :
    x ∈ (head.applyTo args).occurrences ↔ x ∈ head.occurrences ∨ x ∈ occurrencesAll args := by
  cases args with
  | nil => simp [applyTo, occurrencesAll]
  | cons arg args =>
    cases head <;> simp [applyTo, occurrences, occurrencesAll_append, or_assoc]

theorem sizeAll_append (ts us : List Ty) : sizeAll (ts ++ us) = sizeAll ts + sizeAll us := by
  induction ts with
  | nil => simp [sizeAll]
  | cons t ts ih => simp [sizeAll, ih, Nat.add_assoc]

/-- Normal forms of applications are at most as large as the plain application node. -/
theorem size_applyTo_le (head : Ty) (args : List Ty) :
    (head.applyTo args).size ≤ 1 + head.size + sizeAll args := by
  cases args with
  | nil =>
    simp only [applyTo, List.isEmpty_nil, if_true, sizeAll]
    omega
  | cons arg args =>
    cases head <;> simp [applyTo, size, sizeAll_append] <;> omega

theorem size_pos (t : Ty) : 0 < t.size := by
  cases t <;> simp only [size] <;> omega

section Variables

variable {σ : TypeVar → Ty} {ρ : EffectVar → Option Row} {x : Var}

/-- The variables of what a variable is replaced by. -/
def replacements (σ : TypeVar → Ty) (ρ : EffectVar → Option Row) : Var → List Var
  | .type v => (σ v).occurrences
  | .effect e => (((Row.ofVar e).subst ρ).tail.map Var.effect).toList

mutual

/-- The variables of a type after a substitution are those of what its variables are replaced by. -/
theorem mem_occurrences_subst :
    {t : Ty} → (x ∈ (t.subst σ ρ).occurrences ↔ ∃ y ∈ t.occurrences, x ∈ replacements σ ρ y)
  | .prim _ => by simp [subst, occurrences]
  | .var _ => by simp [subst, occurrences, replacements]
  | .named _ _ | .tuple _ => mem_occurrencesAll_subst
  | .app _ _ => by
    simp only [subst, mem_occurrences_applyTo, mem_occurrences_subst, mem_occurrencesAll_subst,
      occurrences,
      List.mem_append, or_and_right, exists_or]
  | .fn _ _ ⟨labels, tail⟩ => by
    -- the row of a function contributes the tail of what its own tail is replaced by
    have htail : x ∈ ((Row.subst ρ ⟨labels, tail⟩).tail.map Var.effect).toList ↔
        ∃ y ∈ (tail.map Var.effect).toList, x ∈ replacements σ ρ y := by
      rcases tail with _ | e
      · simp [Row.subst]
      · rcases he : ρ e <;> simp [Row.subst, replacements, Row.ofVar, he]
    simp only [subst, occurrences, List.mem_append, mem_occurrencesAll_subst,
      mem_occurrences_subst, htail,
      or_and_right, exists_or]

/-- The same for a list of types. -/
theorem mem_occurrencesAll_subst :
    {ts : List Ty} →
    (x ∈ occurrencesAll (substAll σ ρ ts) ↔ ∃ y ∈ occurrencesAll ts, x ∈ replacements σ ρ y)
  | [] => by simp [substAll, occurrencesAll]
  | _ :: _ => by
    simp only [substAll, occurrencesAll, List.mem_append, mem_occurrences_subst,
      mem_occurrencesAll_subst,
      or_and_right, exists_or]

end

/-- Every type variable of a substituted type comes from the replacement of one of its type
variables. -/
theorem exists_of_type_mem_occurrences_subst {v : TypeVar} {t : Ty}
    (h : .type v ∈ (t.subst σ ρ).occurrences) :
    ∃ w, .type w ∈ t.occurrences ∧ .type v ∈ (σ w).occurrences := by
  obtain ⟨w | e, hw, hv⟩ := mem_occurrences_subst.mp h
  · exact ⟨w, hw, hv⟩
  · simp [replacements] at hv

end Variables

mutual

/-- Resolving only the rows of a type never makes it larger. -/
theorem size_subst_var_le (ρ : EffectVar → Option Row) : ∀ t : Ty, (t.subst .var ρ).size ≤ t.size
  | .prim _ => by simp [subst]
  | .var _ => by simp [subst, size]
  | .named _ args => by
    have := sizeAll_subst_var_le ρ args
    simp only [subst, size]
    omega
  | .app head args => by
    have h₁ := size_subst_var_le ρ head
    have h₂ := sizeAll_subst_var_le ρ args
    have h₃ := size_applyTo_le (head.subst .var ρ) (substAll .var ρ args)
    simp only [subst, size]
    omega
  | .fn params result effects => by
    have h₁ := sizeAll_subst_var_le ρ params
    have h₂ := size_subst_var_le ρ result
    simp only [subst, size]
    omega
  | .tuple elems => by
    have := sizeAll_subst_var_le ρ elems
    simp only [subst, size]
    omega

/-- The same for a list of types. -/
theorem sizeAll_subst_var_le (ρ : EffectVar → Option Row) :
    ∀ ts : List Ty, sizeAll (substAll .var ρ ts) ≤ sizeAll ts
  | [] => by simp [substAll]
  | t :: ts => by
    have h₁ := size_subst_var_le ρ t
    have h₂ := sizeAll_subst_var_le ρ ts
    simp only [substAll, sizeAll]
    omega

end

end RowTyping.Ty
