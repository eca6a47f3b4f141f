import RowTyping.Types.Measure
import RowTyping.Unify.Event

/-!
# Equations between types and between rows

Unification works on a list of equations. Taking an equation between types of one shape apart gives
equations between their parts that are smaller in total and mention no new variable.
-/

namespace RowTyping

/-! ## Splitting applications -/

/-- The type is the second one applied to further arguments. -/
inductive Ty.Splits : Ty → Ty → List Ty → Prop
  | app (head : Ty) (before args : List Ty) :
    Splits (.app head (before ++ args)) (head.applyTo before) args
  | named (name : String) (before args : List Ty) :
    Splits (.named name (before ++ args)) (.named name before) args

namespace Ty.Splits

variable {t x : Ty} {args : List Ty}

/-- The last arguments of an application. -/
theorem of_app (head : Ty) (args : List Ty) (n : Nat) :
    (Ty.app head args).Splits (head.applyTo (args.take n)) (args.drop n) := by
  have h := Splits.app head (args.take n) (args.drop n)
  rwa [List.take_append_drop] at h

/-- The last arguments of a constructor. -/
theorem of_named (name : String) (args : List Ty) (n : Nat) :
    (Ty.named name args).Splits (.named name (args.take n)) (args.drop n) := by
  have h := Splits.named name (args.take n) (args.drop n)
  rwa [List.take_append_drop] at h

theorem mem_occurrences (h : t.Splits x args) {y : Var} :
    y ∈ t.occurrences ↔ y ∈ x.occurrences ∨ y ∈ occurrencesAll args := by
  cases h with
  | app head before =>
    rw [mem_occurrences_applyTo, occurrences, occurrencesAll_append, List.mem_append,
      List.mem_append, or_assoc]
  | named name before => rw [occurrences, occurrencesAll_append, List.mem_append, occurrences]

/-- The parts of a split type are no larger than the type. -/
theorem size_le (h : t.Splits x args) : x.size + sizeAll args ≤ t.size := by
  cases h with
  | app head before =>
    have := head.size_applyTo_le before
    simp only [size, sizeAll_append]
    omega
  | named name before =>
    simp only [size, sizeAll_append]
    omega

end Ty.Splits

/-! ## Equations -/

/-- Two types or two rows that have to become equal. -/
inductive Equation where
  /-- An equation between types. -/
  | types (expected actual : Ty)
  /-- An equation between rows. -/
  | rows (expected actual : Row)
deriving DecidableEq, Repr, Inhabited

namespace Equation

/-- Change the types and rows of an equation by a substitution of variables. -/
def subst (σ : TypeVar → Ty) (ρ : EffectVar → Option Row) : Equation → Equation
  | .types a b => .types (a.subst σ ρ) (b.subst σ ρ)
  | .rows a b => .rows (a.subst ρ) (b.subst ρ)

/-- Replace one type variable by a type. -/
def replace (v : TypeVar) (t : Ty) : Equation → Equation :=
  subst (fun w => if w = v then t else .var w) fun _ => none

/-- Resolve the rows of an equation. -/
def resolveRows (s : Subst) : Equation → Equation :=
  subst .var (s.resolveEffect s.effects.size)

/-- Replace one type variable by a type in every equation of a list. -/
def replaceAll (v : TypeVar) (t : Ty) (eqs : List Equation) : List Equation :=
  eqs.map (replace v t)

/-- Resolve the rows of every equation of a list. -/
def resolveAllRows (s : Subst) (eqs : List Equation) : List Equation :=
  eqs.map (resolveRows s)

/-- The type variables of an equation. -/
def typeOccurrences : Equation → List TypeVar
  | .types a b => a.typeOccurrences ++ b.typeOccurrences
  | .rows _ _ => []

/-- The number of type nodes of an equation; a pair of rows counts as one. -/
def size : Equation → Nat
  | .types a b => a.size + b.size
  | .rows _ _ => 1

/-- How many different type variables a list of equations mentions. -/
def countVars (eqs : List Equation) : Nat :=
  (distinct (eqs.flatMap typeOccurrences)).length

/-- The number of type nodes of a list of equations. -/
def totalSize : List Equation → Nat
  | [] => 0
  | eq :: eqs => eq.size + totalSize eqs

/-- The equations between the members of two lists of types, pairwise in order. -/
def zip : List Ty → List Ty → List Equation :=
  List.zipWith .types

/-- Take an equation between types of one shape apart. A list of `n` arguments against a longer one
is matched with the last `n` arguments, and the heads take the rest. -/
def decompose? : Ty → Ty → Option (Shape × List Equation)
  | .named n as, .named m bs =>
    if n = m ∧ as.length = bs.length then some (.constructor, zip as bs) else none
  | .app f as, .app g bs =>
    if as.length ≤ bs.length then
      let extra := bs.length - as.length
      some (.applications, .types f (g.applyTo (bs.take extra)) :: zip as (bs.drop extra))
    else
      let extra := as.length - bs.length
      some (.applications, .types (f.applyTo (as.take extra)) g :: zip (as.drop extra) bs)
  | .app f as, .named n bs =>
    if as.length ≤ bs.length then
      let extra := bs.length - as.length
      some (.applicationConstructor,
        .types f (.named n (bs.take extra)) :: zip as (bs.drop extra))
    else none
  | .named n as, .app g bs =>
    if bs.length ≤ as.length then
      let extra := as.length - bs.length
      some (.constructorApplication,
        .types (.named n (as.take extra)) g :: zip (as.drop extra) bs)
    else none
  | .fn ps r e, .fn qs s f =>
    if ps.length = qs.length then
      some (.functions, zip ps qs ++ [.types r s, .rows e f])
    else none
  | .tuple as, .tuple bs =>
    if as.length = bs.length then some (.tuples, zip as bs) else none
  | _, _ => none

/-! ## Measures -/

variable {v : TypeVar} {ts : List Ty} {x : Var} {a b : Ty} {parts : List Equation} {shape : Shape}

theorem mem_typeOccurrences {t : Ty} : v ∈ t.typeOccurrences ↔ .type v ∈ t.occurrences := by
  simp only [Ty.typeOccurrences, List.mem_filterMap]
  constructor
  · rintro ⟨x, hx, h⟩
    cases x <;> simp_all [Var.type?]
  · intro h
    exact ⟨_, h, rfl⟩

/-- A type variable of an equation after a substitution comes from one before it. -/
theorem mem_typeOccurrences_subst {σ : TypeVar → Ty} {ρ : EffectVar → Option Row} {eq : Equation}
    (h : v ∈ (eq.subst σ ρ).typeOccurrences) :
    ∃ w ∈ eq.typeOccurrences, v ∈ (σ w).typeOccurrences := by
  cases eq with
  | rows a b => simp [subst, typeOccurrences] at h
  | types a b =>
    simp only [subst, typeOccurrences, List.mem_append, mem_typeOccurrences] at h ⊢
    rcases h with h | h
    · obtain ⟨w, hw, hv⟩ := Ty.exists_of_type_mem_occurrences_subst h
      exact ⟨w, .inl hw, hv⟩
    · obtain ⟨w, hw, hv⟩ := Ty.exists_of_type_mem_occurrences_subst h
      exact ⟨w, .inr hw, hv⟩

theorem totalSize_append (eqs eqs' : List Equation) :
    totalSize (eqs ++ eqs') = totalSize eqs + totalSize eqs' := by
  induction eqs with
  | nil => simp [totalSize]
  | cons eq eqs ih => simp [totalSize, ih, Nat.add_assoc]

theorem size_pos (eq : Equation) : 0 < eq.size := by
  cases eq with
  | types a b =>
    have := a.size_pos
    simp only [size]
    omega
  | rows a b => simp [size]

/-- Resolving rows never enlarges equations. -/
theorem totalSize_resolveAllRows_le (s : Subst) (eqs : List Equation) :
    totalSize (resolveAllRows s eqs) ≤ totalSize eqs := by
  unfold resolveAllRows
  induction eqs with
  | nil => simp [totalSize]
  | cons eq eqs ih =>
    have : (eq.resolveRows s).size ≤ eq.size := by
      cases eq with
      | rows a b => simp [resolveRows, subst, size]
      | types a b =>
        have h₁ := Ty.size_subst_var_le (s.resolveEffect s.effects.size) a
        have h₂ := Ty.size_subst_var_le (s.resolveEffect s.effects.size) b
        simp only [resolveRows, subst, size]
        omega
    simp only [List.map_cons, totalSize]
    omega

/-- Resolving rows brings in no type variable. -/
theorem countVars_resolveAllRows_le (s : Subst) (eqs : List Equation) :
    countVars (resolveAllRows s eqs) ≤ countVars eqs := by
  refine length_distinct_le fun v hv => ?_
  simp only [resolveAllRows, List.mem_flatMap, List.mem_map] at hv ⊢
  obtain ⟨_, ⟨eq, heq, rfl⟩, hv⟩ := hv
  obtain ⟨w, hw, hv⟩ := mem_typeOccurrences_subst hv
  have : v = w := by simpa [Ty.typeOccurrences, Ty.occurrences, Var.type?] using hv
  exact ⟨eq, heq, this ▸ hw⟩

/-- Replacing a variable by a type without it takes the variable out of the equations. -/
theorem countVars_replaceAll_lt {t : Ty} (hv : v ∉ t.typeOccurrences) {eqs : List Equation}
    {vars : List TypeVar} (hvars : v ∈ vars) (ht : ∀ w ∈ t.typeOccurrences, w ∈ vars)
    (heqs : ∀ w ∈ eqs.flatMap typeOccurrences, w ∈ vars) :
    countVars (replaceAll v t eqs) < (distinct vars).length := by
  have hmem {w : TypeVar} (hw : w ∈ (replaceAll v t eqs).flatMap typeOccurrences) :
      w ∈ t.typeOccurrences ∨ w ≠ v ∧ w ∈ eqs.flatMap typeOccurrences := by
    simp only [replaceAll, List.mem_flatMap, List.mem_map] at hw ⊢
    obtain ⟨_, ⟨eq, heq, rfl⟩, hw⟩ := hw
    obtain ⟨u, hu, hw⟩ := mem_typeOccurrences_subst hw
    split at hw
    · exact .inl hw
    · rename_i hne
      obtain rfl : w = u := by simpa [Ty.typeOccurrences, Ty.occurrences, Var.type?] using hw
      exact .inr ⟨hne, eq, heq, hu⟩
  refine length_distinct_lt (fun w hw => ?_) hvars fun h => ?_
  · rcases hmem hw with h | ⟨-, h⟩
    · exact ht w h
    · exact heqs w h
  · rcases hmem h with h | ⟨h, -⟩
    · exact hv h
    · exact h rfl

/-- Equations between members are no larger than the lists. -/
theorem totalSize_zip_le (as bs : List Ty) :
    totalSize (zip as bs) ≤ Ty.sizeAll as + Ty.sizeAll bs := by
  induction as generalizing bs with
  | nil => simp [zip, totalSize]
  | cons a as ih =>
    cases bs with
    | nil => simp [zip, totalSize]
    | cons b bs =>
      have := ih bs
      simp only [zip, List.zipWith_cons_cons, totalSize, size, Ty.sizeAll] at this ⊢
      omega

/-- Equations between members mention only variables of the lists. -/
theorem mem_typeOccurrences_zip {as bs : List Ty} (h : v ∈ (zip as bs).flatMap typeOccurrences) :
    .type v ∈ Ty.occurrencesAll as ∨ .type v ∈ Ty.occurrencesAll bs := by
  induction as generalizing bs with
  | nil => simp [zip] at h
  | cons a as ih =>
    cases bs with
    | nil => simp [zip] at h
    | cons b bs =>
      simp only [zip, List.zipWith_cons_cons, List.flatMap_cons, List.mem_append, typeOccurrences,
        mem_typeOccurrences, Ty.occurrencesAll] at h ⊢
      rcases h with (h | h) | h
      · exact .inl (.inl h)
      · exact .inr (.inl h)
      · rcases ih h with h | h
        · exact .inl (.inr h)
        · exact .inr (.inr h)

/-- An equation between types of one shape and the equations between their parts. -/
inductive Decomposes : Ty → Ty → List Equation → Prop
  | named {name : String} {as bs : List Ty} (h : as.length = bs.length) :
    Decomposes (.named name as) (.named name bs) (zip as bs)
  | heads {a b x y : Ty} {as bs : List Ty} (ha : a.Splits x as) (hb : b.Splits y bs)
    (h : as.length = bs.length) : Decomposes a b (.types x y :: zip as bs)
  | fn {ps qs : List Ty} {p q : Ty} {r r' : Row} (h : ps.length = qs.length) :
    Decomposes (.fn ps p r) (.fn qs q r') (zip ps qs ++ [.types p q, .rows r r'])
  | tuple {as bs : List Ty} (h : as.length = bs.length) :
    Decomposes (.tuple as) (.tuple bs) (zip as bs)

theorem decomposes_of_eq_some (h : decompose? a b = some (shape, parts)) :
    Decomposes a b parts := by
  revert h
  -- one case for each pair of shapes; applications of different lengths are aligned at their ends
  fun_cases decompose? a b
  all_goals rintro ⟨⟩
  · rename_i hnm
    obtain ⟨rfl, hlen⟩ := hnm
    exact .named hlen
  · rename_i f as g bs _ _
    exact .heads (.app f [] as) (.of_app g bs _) (by simp; omega)
  · rename_i f as g bs _ _
    exact .heads (.of_app f as _) (.app g [] bs) (by simp; omega)
  · rename_i f as n bs _ _
    exact .heads (.app f [] as) (.of_named n bs _) (by simp; omega)
  · rename_i n as g bs _ _
    exact .heads (.of_named n as _) (.app g [] bs) (by simp; omega)
  · exact .fn ‹_›
  · exact .tuple ‹_›

/-- The parts of an equation are smaller in total than the equation. -/
theorem totalSize_decompose_lt (h : decompose? a b = some (shape, parts)) :
    totalSize parts < a.size + b.size := by
  revert h
  fun_cases decompose? a b
  all_goals rintro ⟨⟩
  · rename_i n as m bs _
    have := totalSize_zip_le as bs
    simp only [Ty.size]
    omega
  · rename_i f as g bs _ extra
    have := totalSize_zip_le as (bs.drop extra)
    have := (Ty.Splits.of_app g bs extra).size_le
    simp only [totalSize, size, Ty.size] at this ⊢
    omega
  · rename_i f as g bs _ extra
    have := totalSize_zip_le (as.drop extra) bs
    have := (Ty.Splits.of_app f as extra).size_le
    simp only [totalSize, size, Ty.size] at this ⊢
    omega
  · rename_i f as n bs _ extra
    have := totalSize_zip_le as (bs.drop extra)
    have := (Ty.Splits.of_named n bs extra).size_le
    simp only [totalSize, size, Ty.size] at this ⊢
    omega
  · rename_i n as g bs _ extra
    have := totalSize_zip_le (as.drop extra) bs
    have := (Ty.Splits.of_named n as extra).size_le
    simp only [totalSize, size, Ty.size] at this ⊢
    omega
  · rename_i ps r e qs s f _
    have := totalSize_zip_le ps qs
    simp only [totalSize_append, totalSize, size, Ty.size]
    omega
  · rename_i as bs _
    have := totalSize_zip_le as bs
    simp only [Ty.size]
    omega

/-- The parts of an equation mention only variables of the equation. -/
theorem mem_typeOccurrences_decompose (h : decompose? a b = some (shape, parts))
    (hv : v ∈ parts.flatMap typeOccurrences) :
    .type v ∈ a.occurrences ∨ .type v ∈ b.occurrences := by
  cases decomposes_of_eq_some h with
  | named | tuple => exact mem_typeOccurrences_zip hv
  | heads ha hb =>
    simp only [List.flatMap_cons, List.mem_append, typeOccurrences, mem_typeOccurrences] at hv
    rw [ha.mem_occurrences, hb.mem_occurrences]
    rcases hv with (hv | hv) | hv
    · exact .inl (.inl hv)
    · exact .inr (.inl hv)
    · exact (mem_typeOccurrences_zip hv).imp .inr .inr
  | fn =>
    simp only [List.flatMap_append, List.flatMap_cons, List.flatMap_nil, List.mem_append,
      typeOccurrences, mem_typeOccurrences, List.append_nil] at hv
    rcases hv with hv | hv | hv
    · rcases mem_typeOccurrences_zip hv with hv | hv <;> simp [Ty.occurrences, hv]
    · simp [Ty.occurrences, hv]
    · simp [Ty.occurrences, hv]

/-- Taking an equation apart brings in no variable. -/
theorem countVars_decompose_le {rest : List Equation} (h : decompose? a b = some (shape, parts)) :
    countVars (parts ++ rest) ≤ countVars (.types a b :: rest) := by
  refine length_distinct_le fun v hv => ?_
  simp only [List.flatMap_append, List.flatMap_cons, List.mem_append, typeOccurrences,
    mem_typeOccurrences] at hv ⊢
  rcases hv with hv | hv
  · exact .inl (mem_typeOccurrences_decompose h hv)
  · exact .inr hv

/-- Dropping an equation brings in no variable. -/
theorem countVars_tail_le (eq : Equation) (rest : List Equation) :
    countVars rest ≤ countVars (eq :: rest) :=
  length_distinct_le fun v hv => by
    rw [List.flatMap_cons]
    exact List.mem_append_right _ hv

end Equation

end RowTyping
