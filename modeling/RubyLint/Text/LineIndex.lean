import RubyLint.Indexing

/-!
# Line index

Line and column of a byte offset.  Lines are numbered from 1 and end at a newline byte; columns are
byte counts from 0.  Offsets outside the data count as its nearer end.
-/

namespace RubyLint

/-- The offsets at which lines start, in increasing order, and the number of bytes. -/
structure LineIndex where
  starts : List Nat
  size : Nat
deriving DecidableEq, Repr

namespace LineIndex

/-- The offsets just after each newline byte, when the data starts at `offset`. -/
def startsFrom (offset : Nat) : List UInt8 → List Nat
  | [] => []
  | b :: rest =>
    if b = 10 then (offset + 1) :: startsFrom (offset + 1) rest else startsFrom (offset + 1) rest

def ofBytes (data : List UInt8) : LineIndex :=
  ⟨0 :: startsFrom 0 data, data.length⟩

/-- The number of lines; a final newline opens one more. -/
def lineCount (index : LineIndex) : Nat :=
  index.starts.length

/-- The offset inside the data that an arbitrary offset stands for. -/
def clamp (index : LineIndex) (offset : Int) : Nat :=
  (min offset index.size).toNat

/-- The line of an offset: the number of lines that start at it or before it. -/
def lineOf (index : LineIndex) (offset : Int) : Nat :=
  index.starts.countP (· ≤ index.clamp offset)

def startOfLineAt (index : LineIndex) (offset : Int) : Nat :=
  index.starts.getD (index.lineOf offset - 1) 0

def columnOf (index : LineIndex) (offset : Int) : Nat :=
  index.clamp offset - index.startOfLineAt offset

def position (index : LineIndex) (offset : Int) : Nat × Nat :=
  (index.lineOf offset, index.columnOf offset)

/-- The offset at which a line starts.  Line 0 is the last line and lower numbers count back from
it. -/
def lineStart? (index : LineIndex) (line : Int) : Option Nat :=
  Indexing.get? index.starts (line - 1)

/-- The offset of the newline that ends a line; the end of the data for the last line and beyond.
Negative numbers count back from the end. -/
def lineEnd? (index : LineIndex) (line : Int) : Option Int :=
  if line < index.starts.length then
    (Indexing.get? index.starts line).map fun start => (start : Int) - 1
  else some index.size

end LineIndex

end RubyLint
