import RowTyping.Types.Var

/-!
# Fresh variables

Every inference draws its variables from a supply of its own. Supplies of one check pass share a
pool that hands out blocks of ids, so that no two of them ever draw the same id; a supply takes a
block only when it has used up the one before. A standalone supply counts upwards from an offset
without end.
-/

namespace RowTyping

/-- The number of ids in a block. -/
def blockSize : Nat := 1024

/-- Blocks of ids for one kind of variable, handed out one after the other. -/
structure Blocks where
  /-- The first id of each block, in the order the blocks are handed out. -/
  start : Nat → Nat := fun k => blockSize * k
  /-- How many blocks have been handed out. -/
  taken : Nat := 0

/-- The ids a supply still holds for one kind of variable. -/
structure IdRange where
  /-- The id that is drawn next. -/
  next : Nat
  /-- The first id that is not part of the range any more, absent from an endless range. -/
  stop : Option Nat
deriving DecidableEq, Repr, Inhabited

namespace IdRange

/-- The range without ids, which takes a block at the first draw. -/
def exhausted : IdRange := ⟨0, some 0⟩

/-- The endless range that starts at an offset. -/
def startingAt (offset : Nat) : IdRange := ⟨offset, none⟩

/-- Draw an id, taking the next block first if the range is used up. -/
def draw (range : IdRange) (blocks : Blocks) : Nat × IdRange × Blocks :=
  if range.stop = some range.next then
    let first := blocks.start blocks.taken
    (first, ⟨first + 1, some (first + blockSize)⟩, { blocks with taken := blocks.taken + 1 })
  else
    (range.next, { range with next := range.next + 1 }, blocks)

end IdRange

/-- What the inferences of one check pass share: the blocks of type and effect ids their supplies
take, and whether they record what happens. -/
structure Pool where
  /-- The blocks of type variable ids. -/
  types : Blocks := {}
  /-- The blocks of effect variable ids. -/
  effects : Blocks := {}
  /-- Whether what happens is recorded. -/
  isTracing : Bool := false

/-- The ids one inference may draw. -/
structure Supply where
  /-- The ids for type variables. -/
  types : IdRange
  /-- The ids for effect variables. -/
  effects : IdRange
deriving DecidableEq, Repr, Inhabited

namespace Supply

/-- A supply that draws from a pool. -/
def pooled : Supply := ⟨.exhausted, .exhausted⟩

/-- A supply that counts upwards from the given offsets. -/
def standalone (typeOffset effectOffset : Nat) : Supply :=
  ⟨.startingAt typeOffset, .startingAt effectOffset⟩

end Supply

/-- A supply together with the pool it takes blocks from. -/
structure Fresh where
  /-- The supply that is drawn from. -/
  supply : Supply
  /-- The pool the supply takes blocks from. -/
  pool : Pool := {}

namespace Fresh

/-- Draw a type variable. -/
def typeVar (f : Fresh) : TypeVar × Fresh :=
  let (id, range, blocks) := f.supply.types.draw f.pool.types
  (⟨id⟩, { supply := { f.supply with types := range }, pool := { f.pool with types := blocks } })

/-- Draw an effect variable. -/
def effectVar (f : Fresh) : EffectVar × Fresh :=
  let (id, range, blocks) := f.supply.effects.draw f.pool.effects
  (⟨id⟩,
    { supply := { f.supply with effects := range }, pool := { f.pool with effects := blocks } })

end Fresh

end RowTyping
