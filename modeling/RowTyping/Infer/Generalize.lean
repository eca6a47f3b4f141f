import RowTyping.Env
import RowTyping.Infer.Obligation

/-!
# Generalisation

`generalize` quantifies an inferred type over its variables that are not fixed and turns the
obligations on them into requirements. A tail that occurs only once, in the row of the function or
of a function it returns, is closed first: nothing else can observe it.
-/

namespace RowTyping

/-- Requirements by trait. -/
structure TraitGroups where
  /-- The traits in order of first use. -/
  order : List String := []
  /-- The requirements on each trait in order of first use, without repetitions. -/
  groups : Dict String (List Given) := {}

namespace TraitGroups

/-- The requirements on a trait. -/
def group (gs : TraitGroups) (name : String) : List Given :=
  (gs.groups.get? name).getD []

/-- Add a requirement to the group of its trait, unless it is there. -/
def add (gs : TraitGroups) (g : Given) : TraitGroups :=
  let name := g.traitName
  let group := gs.group name
  { order := if name ∈ gs.order then gs.order else gs.order ++ [name]
    groups := gs.groups.insert name (if g ∈ group then group else group ++ [g]) }

/-- Take the groups of the given traits out of a map, one after another. -/
def drain : List String → Dict String (List Given) → List Given
  | [], _ => []
  | name :: names, groups => (groups.get? name).getD [] ++ drain names (groups.erase name)

end TraitGroups

/-- Order requirements by trait, traits and requirements in order of first use, without
repetitions. -/
def groupByTrait (givens : List Given) : List Given :=
  let gs := givens.foldl TraitGroups.add {}
  TraitGroups.drain gs.order gs.groups

namespace Ty

/-- The rows of a function type, of its result and so on. -/
def resultRows : Ty → List Row
  | .fn _ result effects => effects :: result.resultRows
  | .prim _ | .var _ | .named _ _ | .app _ _ | .tuple _ => []

end Ty

namespace Generalize

/-- How often an effect variable occurs in a type and in the types of obligations. -/
def effectCount (t : Ty) (residual : List Obligation) (e : EffectVar) : Nat :=
  t.effectCount e + (residual.flatMap (·.type.occurrences)).count (.effect e)

/-- The tails that only the result of the type can observe. -/
def singletonTails (t : Ty) (residual : List Obligation) (fixed : FixedVars) : List EffectVar :=
  (t.resultRows.filterMap (·.tail)).filter fun e =>
    effectCount t residual e = 1 && !fixed.effects.contains e

/-- The substitution that closes tails. -/
def closing (tails : List EffectVar) : Subst :=
  tails.foldl (fun s e => s.bindEffect e .pure) .empty

/-- The names declared for variables, carried over to the quantified variables they came out as. The
variable with the smallest id wins. -/
def transferNames (hints : VarNames) (s : Subst) (types : List TypeVar) (effects : List EffectVar) :
    VarNames where
  types := hints.types.entries.foldl (fun names (v, name) =>
    match s.apply (.var v) with
    | .var w => if types.contains w then names.insertNew w name else names
    | _ => names) {}
  effects := hints.effects.entries.foldl (fun names (e, name) =>
    match s.applyRow (.ofVar e) with
    | ⟨[], some w⟩ => if effects.contains w then names.insertNew w name else names
    | _ => names) {}

/-- Whether an obligation has a type variable that neither the type nor the fixed variables
determine. -/
def isAmbiguous (t : Ty) (fixed : FixedVars) (ob : Obligation) : Bool :=
  let determined := t.typeVars
  ob.type.typeVars.any fun v => !determined.contains v && !fixed.types.contains v

/-- Whether all type variables of an obligation are fixed. -/
def isFixed (fixed : FixedVars) (ob : Obligation) : Bool :=
  ob.type.typeVars.all (fixed.types.contains ·)

end Generalize

open Generalize in
/-- Quantify a type over its variables that are not fixed, with the obligations on them as
requirements. Obligations on fixed variables are handed back. An obligation whose type is not
determined is an error. -/
def generalize (t : Ty) (residual : List Obligation) (s : Subst) (fixed : FixedVars)
    (hints : VarNames) : Except TypingError (Scheme × List Obligation) :=
  let t := s.apply t
  let closed := closing (singletonTails t residual fixed)
  let t := closed.apply t
  let residual := residual.map fun ob => (ob.apply s).apply closed
  match residual.find? (isAmbiguous t fixed) with
  | some ob => .error (.ambiguousTrait ob.traitName ob.type ob.origin.span)
  | none =>
    let typeVars := (t.vars.filterMap Var.type?).filter (!fixed.types.contains ·)
    let effectVars := (t.vars.filterMap Var.effect?).filter (!fixed.effects.contains ·)
    let givens := (residual.filter (!isFixed fixed ·)).map (·.toGiven)
    .ok ({ typeVars, effectVars
           givens := groupByTrait givens
           names := transferNames hints s typeVars effectVars
           type := t },
      residual.filter (isFixed fixed))

end RowTyping
