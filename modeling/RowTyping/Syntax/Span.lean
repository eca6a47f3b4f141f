/-!
# Source positions

A span is a range of bytes in a numbered file. Nodes without a source have the synthetic file.
-/

namespace RowTyping

/-- A range of bytes of a source file. -/
structure Span where
  /-- The number of the file. -/
  file : UInt32
  /-- The first byte. -/
  start : UInt32
  /-- The byte after the last one. -/
  stop : UInt32
deriving DecidableEq, Repr, Inhabited

namespace Span

/-- The file number of nodes that no source file contains. -/
def syntheticFile : UInt32 := 0xFFFFFFFF

/-- The span of nodes that no source file contains. -/
def synthetic : Span := ⟨syntheticFile, 0, 0⟩

/-- Whether the span lies in no source file. -/
def isSynthetic (s : Span) : Bool :=
  s.file = syntheticFile

/-- The span itself, unless it lies in no source file. -/
def inSource? (s : Span) : Option Span :=
  if s.isSynthetic then none else some s

/-- Write a span as `file:start..stop`. -/
def render (s : Span) : String :=
  s!"{s.file}:{s.start}..{s.stop}"

end Span

/-- A value with its source position. -/
structure Spanned (α : Type) where
  /-- The value. -/
  node : α
  /-- Where it stands. -/
  span : Span := .synthetic
deriving DecidableEq, Repr, Inhabited

/-- Values that no source file contains. -/
instance {α : Type} : Coe α (Spanned α) where
  coe node := { node }

end RowTyping
