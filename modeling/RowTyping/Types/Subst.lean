import RowTyping.Types.Names

/-!
# Substitutions

A substitution binds type variables to types and effect variables to rows. Bindings may mention
other bound variables; `Subst.apply` follows them to the end. A path of bindings without a cycle
passes each bound variable at most once, so as many steps as there are bindings reach its end.
-/

namespace RowTyping

/-- Bindings of type variables to types and of effect variables to rows. -/
structure Subst where
  /-- The bindings of type variables. -/
  types : Dict TypeVar Ty := {}
  /-- The bindings of effect variables. -/
  effects : Dict EffectVar Row := {}
deriving DecidableEq, Repr, Inhabited

namespace Subst

/-- The substitution without bindings. -/
def empty : Subst := {}

/-- Bind a type variable, replacing an earlier binding. -/
def bindType (s : Subst) (v : TypeVar) (t : Ty) : Subst :=
  { s with types := s.types.insert v t }

/-- Bind an effect variable, replacing an earlier binding. -/
def bindEffect (s : Subst) (e : EffectVar) (r : Row) : Subst :=
  { s with effects := s.effects.insert e r }

/-- The number of bindings. -/
def size (s : Subst) : Nat :=
  s.types.size + s.effects.size

/-- Whether there are no bindings. -/
def isEmpty (s : Subst) : Bool :=
  s.types.isEmpty && s.effects.isEmpty

/-- The row an effect variable stands for after at most `n` steps, if it is bound. -/
def resolveEffect (s : Subst) : Nat → EffectVar → Option Row
  | 0, _ => none
  | n + 1, e => (s.effects.get? e).map (Row.subst (s.resolveEffect n))

/-- Resolve the tail of a row and merge in the labels it stands for. -/
def applyRow (s : Subst) (r : Row) : Row :=
  r.subst (s.resolveEffect s.effects.size)

/-- The type a type variable stands for after at most `n` steps. -/
def resolveType (s : Subst) : Nat → TypeVar → Ty
  | 0, v => .var v
  | n + 1, v =>
    match s.types.get? v with
    | none => .var v
    | some t => t.subst (s.resolveType n) (s.resolveEffect s.effects.size)

/-- Replace every bound variable of a type by what it stands for. -/
def apply (s : Subst) (t : Ty) : Ty :=
  t.subst (s.resolveType s.types.size) (s.resolveEffect s.effects.size)

/-- Whether a type variable is free in a type once the substitution is applied. -/
def occurs (s : Subst) (v : TypeVar) (t : Ty) : Bool :=
  (s.apply t).typeOccurrences.contains v

/-- The bindings of `first` as `resolve` changes them, without those that come out as the variable
itself, and the bindings of other variables in `later` as `resolveLater` changes them. -/
def composeBindings {κ α : Type} [DecidableEq κ] [Ord κ] [DecidableEq α] (self : κ → α)
    (resolve resolveLater : α → α) (first later : Dict κ α) : Dict κ α :=
  let resolved := first.entries.foldl (fun d (k, a) =>
    if resolve a = self k then d else d.insertNew k (resolve a)) .empty
  later.entries.foldl (fun d (k, a) =>
    if first.contains k then d else d.insertNew k (resolveLater a)) resolved

/-- The substitution that acts like `s` followed by `later`. -/
def compose (s later : Subst) : Subst where
  types := composeBindings .var (fun t => later.apply (s.apply t)) later.apply s.types later.types
  effects :=
    composeBindings .ofVar (fun r => later.applyRow (s.applyRow r)) later.applyRow s.effects
      later.effects

end Subst

end RowTyping
