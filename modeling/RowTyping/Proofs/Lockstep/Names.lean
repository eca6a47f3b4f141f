import RowTyping.Infer.Resolve
import RowTyping.Proofs.Lockstep.Matching

/-!
# Names of matching variables

Names given to variables are stored in the order of the variables' ids, and where several come
together the smallest id wins. So names are kept in lockstep only by a matching that preserves the
order of ids (`Matching.Increasing`).
-/

namespace RowTyping

open List

/-! ## Dictionaries related entry by entry -/

namespace Dict

variable {κ κ' α β : Type} {K : κ → κ' → Prop} {R : α → β → Prop}

/-- The entries have related keys and related values, in the same order. -/
def Rel (K : κ → κ' → Prop) (R : α → β → Prop) (d : Dict κ α) (d' : Dict κ' β) : Prop :=
  Forall₂ (fun entry entry' => K entry.1 entry'.1 ∧ R entry.2 entry'.2) d.entries d'.entries

theorem rel_empty : Rel K R (empty : Dict κ α) (empty : Dict κ' β) := .nil

theorem rel_lookup [DecidableEq κ] [DecidableEq κ'] (hK : Relator.BiUnique K)
    {entries : List (κ × α)} {entries' : List (κ' × β)}
    (h : Forall₂ (fun entry entry' => K entry.1 entry'.1 ∧ R entry.2 entry'.2) entries entries')
    {k : κ} {k' : κ'} (hk : K k k') : Option.Rel R (lookup k entries) (lookup k' entries') := by
  induction h with
  | nil => exact .none
  | cons hentry _ ih =>
    have heq := Relator.rel_eq hK hk hentry.1
    simp only [lookup, heq]
    split
    · exact .some hentry.2
    · exact ih

theorem Rel.get? [DecidableEq κ] [DecidableEq κ'] (hK : Relator.BiUnique K) {d : Dict κ α}
    {d' : Dict κ' β} (h : Rel K R d d') {k : κ} {k' : κ'} (hk : K k k') :
    Option.Rel R (d.get? k) (d'.get? k') :=
  rel_lookup hK h hk

theorem Rel.values {d : Dict κ α} {d' : Dict κ' β} (h : Rel K R d d') :
    Forall₂ R d.values d'.values := by
  rw [Dict.values, Dict.values, forall₂_map_left_iff, forall₂_map_right_iff]
  exact h.imp fun _ _ hentry => hentry.2

variable [Ord κ] [Ord κ']

/-- Related keys compare alike, so related entries are put at the same place. -/
theorem Rel.insert (hK : ∀ {k k' l l'}, K k k' → K l l' → compare k l = compare k' l')
    {d : Dict κ α}
    {d' : Dict κ' β} (h : Rel K R d d') {k : κ} {k' : κ'} (hk : K k k') {a : α} {b : β}
    (hab : R a b) :
    Rel K R (d.insert k a) (d'.insert k' b) := by
  obtain ⟨entries⟩ := d
  obtain ⟨entries'⟩ := d'
  change Forall₂ _ (place k a entries) (place k' b entries')
  change Forall₂ _ entries entries' at h
  induction h with
  | nil => exact .cons ⟨hk, hab⟩ .nil
  | cons hentry hrest ih =>
    simp only [place, hK hk hentry.1]
    split
    · exact .cons ⟨hk, hab⟩ (.cons hentry hrest)
    · exact .cons ⟨hk, hab⟩ hrest
    · exact .cons hentry ih

theorem Rel.insertNew [DecidableEq κ] [DecidableEq κ'] (hbi : Relator.BiUnique K)
    (hK : ∀ {k k' l l'}, K k k' → K l l' → compare k l = compare k' l') {d : Dict κ α}
    {d' : Dict κ' β} (h : Rel K R d d') {k : κ} {k' : κ'} (hk : K k k') {a : α} {b : β}
    (hab : R a b) :
    Rel K R (d.insertNew k a) (d'.insertNew k' b) := by
  have hfound := h.get? hbi hk
  rw [Dict.insertNew, Dict.insertNew, Dict.contains, Dict.contains, isSome_eq_of_rel hfound]
  split
  · exact h
  · exact h.insert hK hk hab

end Dict

/-! ## Names -/

namespace Matching

variable {ρ : Matching}

/-- The matching preserves the order of ids. -/
structure Increasing (ρ : Matching) : Prop where
  types : ∀ {v v' w w'}, ρ.types v v' → ρ.types w w' → (v.id < w.id ↔ v'.id < w'.id)
  effects : ∀ {e e' f f'}, ρ.effects e e' → ρ.effects f f' → (e.id < f.id ↔ e'.id < f'.id)

private theorem compare_eq_of_lt_iff {a b a' b' : Nat} (h : a < b ↔ a' < b')
    (h' : b < a ↔ b' < a') :
    compare a b = compare a' b' := by
  simp only [Nat.compare_eq_ite_lt, h, h']

theorem Increasing.compare_types (h : ρ.Increasing) {v v' w w' : TypeVar} (hv : ρ.types v v')
    (hw : ρ.types w w') : compare v w = compare v' w' :=
  compare_eq_of_lt_iff (h.types hv hw) (h.types hw hv)

theorem Increasing.compare_effects (h : ρ.Increasing) {e e' f f' : EffectVar} (he : ρ.effects e e')
    (hf : ρ.effects f f') : compare e f = compare e' f' :=
  compare_eq_of_lt_iff (h.effects he hf) (h.effects hf he)

/-- The same names for matching variables. -/
structure Names (ρ : Matching) (names names' : VarNames) : Prop where
  types : Dict.Rel ρ.types Eq names.types names'.types
  effects : Dict.Rel ρ.effects Eq names.effects names'.effects

theorem names_empty : ρ.Names {} {} := ⟨.nil, .nil⟩

private theorem forall₂_foldl {α β γ δ : Type} {R : α → β → Prop} {S : γ → δ → Prop}
    {f : γ → α → γ} {g : δ → β → δ} (hfg : ∀ {c d a b}, S c d → R a b → S (f c a) (g d b))
    {as : List α} {bs : List β} (h : Forall₂ R as bs) {c : γ} {d : δ} (hcd : S c d) :
    S (as.foldl f c) (bs.foldl g d) := by
  induction h generalizing c d with
  | nil => exact hcd
  | cons hab _ ih => exact ih (hfg hcd hab)

theorem Names.merge (hρ : ρ.Increasing) {names names' new new' : VarNames}
    (h : ρ.Names names names')
    (hnew : ρ.Names new new') : ρ.Names (names.merge new) (names'.merge new') where
  types := forall₂_foldl (fun hd hentry =>
    hd.insertNew ρ.biUnique_types hρ.compare_types hentry.1 hentry.2) hnew.types h.types
  effects := forall₂_foldl (fun hd hentry =>
    hd.insertNew ρ.biUnique_effects hρ.compare_effects hentry.1 hentry.2) hnew.effects h.effects

theorem names_scope (hρ : ρ.Increasing) {scope scope' : TypeScope}
    (htypes : Forall₂ (fun entry entry' => entry.1 = entry'.1 ∧ ρ.types entry.2 entry'.2)
      scope.types scope'.types)
    (heffects : Forall₂ (fun entry entry' => entry.1 = entry'.1 ∧ ρ.effects entry.2 entry'.2)
      scope.effects scope'.effects) : ρ.Names scope.names scope'.names where
  types := by
    rw [TypeScope.names, TypeScope.names, Dict.ofList, Dict.ofList]
    refine forall₂_foldl (R := fun entry entry' => ρ.types entry.1 entry'.1 ∧ entry.2 = entry'.2)
      (fun hd hentry => hd.insert hρ.compare_types hentry.1 hentry.2) ?_ .nil
    rw [forall₂_map_left_iff, forall₂_map_right_iff]
    exact htypes.imp fun _ _ h => h.symm
  effects := by
    rw [TypeScope.names, TypeScope.names, Dict.ofList, Dict.ofList]
    refine forall₂_foldl (R := fun entry entry' => ρ.effects entry.1 entry'.1 ∧ entry.2 = entry'.2)
      (fun hd hentry => hd.insert hρ.compare_effects hentry.1 hentry.2) ?_ .nil
    rw [forall₂_map_left_iff, forall₂_map_right_iff]
    exact heffects.imp fun _ _ h => h.symm

/-- Names are carried over to matching variables. -/
theorem names_transferNames (hρ : ρ.Increasing) {hints hints' : VarNames} (h : ρ.Names hints hints')
    {s s' : Subst} (hs : ρ.Valuations ρ s.valuation s'.valuation) {types types' : List TypeVar}
    (htypes : Forall₂ ρ.types types types') {effects effects' : List EffectVar}
    (heffects : Forall₂ ρ.effects effects effects') :
    ρ.Names (Generalize.transferNames hints s types effects)
      (Generalize.transferNames hints' s' types' effects') where
  types := by
    refine forall₂_foldl (fun {names names' entry entry'} hnames hentry => ?_) h.types .nil
    obtain ⟨v, name⟩ := entry
    obtain ⟨v', name'⟩ := entry'
    have ht : ρ.Types (s.apply (.var v)) (s'.apply (.var v')) := (Types.var hentry.1).under hs
    dsimp only
    generalize s.apply (.var v) = t at ht ⊢
    generalize s'.apply (.var v') = t' at ht ⊢
    cases ht with
    | @var w w' hw =>
      have hmem : types.contains w = types'.contains w' := by
        rw [contains_eq_mem, contains_eq_mem, decide_eq_decide]
        exact rel_mem ρ.biUnique_types hw htypes
      simp only [hmem]
      split
      · exact hnames.insertNew ρ.biUnique_types hρ.compare_types hw hentry.2
      · exact hnames
    | _ => exact hnames
  effects := by
    refine forall₂_foldl (fun {names names' entry entry'} hnames hentry => ?_) h.effects .nil
    obtain ⟨e, name⟩ := entry
    obtain ⟨e', name'⟩ := entry'
    have hr : ρ.Rows (s.applyRow (.ofVar e)) (s'.applyRow (.ofVar e')) :=
      (Rows.extended [] hentry.1).under hs
    dsimp only
    generalize s.applyRow (.ofVar e) = r at hr ⊢
    generalize s'.applyRow (.ofVar e') = r' at hr ⊢
    cases hr with
    | closed labels => cases labels <;> exact hnames
    | @extended labels w w' hw =>
      have hmem : effects.contains w = effects'.contains w' := by
        rw [contains_eq_mem, contains_eq_mem, decide_eq_decide]
        exact rel_mem ρ.biUnique_effects hw heffects
      cases labels with
      | nil =>
        simp only [hmem]
        split
        · exact hnames.insertNew ρ.biUnique_effects hρ.compare_effects hw hentry.2
        · exact hnames
      | cons => exact hnames

end Matching

end RowTyping
