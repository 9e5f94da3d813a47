import NovelAsm.Bytes

/-!
Places in a source text. A location counts lines and columns from one and bytes
from zero, all modulo `2 ^ 32`; only a line feed starts a new line. A span runs
from a first location up to, and not including, a second one.

A segment of a file is read as if it stood alone and is moved to its place
afterwards: `Location.rebase` shifts lines and offsets everywhere, and columns
on the segment's first line alone, because later lines begin at column one in
the file as well.
-/

namespace NovelAsm

structure Location where
  line : UInt32
  column : UInt32
  offset : UInt32
deriving DecidableEq, Repr

namespace Location

/-- The beginning of a text. -/
def origin : Location := ⟨1, 1, 0⟩

instance : Inhabited Location := ⟨origin⟩

/-- The location behind one byte. -/
def step (place : Location) (b : UInt8) : Location :=
  if b == byte '\n' then ⟨place.line + 1, 1, place.offset + 1⟩
  else ⟨place.line, place.column + 1, place.offset + 1⟩

/-- The location behind a text. -/
def advance (place : Location) (text : Bytes) : Location := text.foldl step place

/-- Moves a location counted from `origin` to the coordinates of `base`. -/
def rebase (place base : Location) : Location :=
  { line := place.line + base.line - 1
    column := if place.line = 1 then place.column + base.column - 1 else place.column
    offset := place.offset + base.offset }

end Location

structure Span where
  start : Location
  stop : Location
deriving DecidableEq, Repr

namespace Span

/-- The empty span at the beginning of a text, for things that no text holds. -/
def origin : Span := ⟨.origin, .origin⟩

instance : Inhabited Span := ⟨origin⟩

def rebase (span : Span) (base : Location) : Span :=
  ⟨span.start.rebase base, span.stop.rebase base⟩

/-- From the beginning of one span to the end of another. -/
def join (first last : Span) : Span := ⟨first.start, last.stop⟩

/-- The span of a text that begins at a location. -/
def covering (place : Location) (text : Bytes) : Span := ⟨place, place.advance text⟩

end Span

end NovelAsm
