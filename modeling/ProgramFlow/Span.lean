/-! Places in a source file. Lines and columns are 32-bit words, ordered by line, then column.
A span starts at its first position and ends before its last one. -/
namespace ProgramFlow

structure Location where
  line : UInt32
  column : UInt32
  deriving DecidableEq, Inhabited, Repr

namespace Location

def cmp (a b : Location) : Ordering :=
  if a.line < b.line then .lt
  else if b.line < a.line then .gt
  else if a.column < b.column then .lt
  else if b.column < a.column then .gt
  else .eq

instance : LE Location := ⟨fun a b => cmp a b ≠ .gt⟩

instance : LT Location := ⟨fun a b => cmp a b = .lt⟩

instance (a b : Location) : Decidable (a ≤ b) := inferInstanceAs (Decidable (cmp a b ≠ .gt))

instance (a b : Location) : Decidable (a < b) := inferInstanceAs (Decidable (cmp a b = .lt))

end Location

inductive Overflow where
  | add
  deriving DecidableEq, Repr

def Overflow.message : Overflow → String
  | .add => "attempt to add with overflow"

structure Span where
  startLine : UInt32
  startCol : UInt32
  endLine : UInt32
  endCol : UInt32
  deriving DecidableEq, Inhabited, Repr

namespace Span

def onLine (line startCol endCol : UInt32) : Span := ⟨line, startCol, line, endCol⟩

def start (s : Span) : Location := ⟨s.startLine, s.startCol⟩

def stop (s : Span) : Location := ⟨s.endLine, s.endCol⟩

def containsLine (s : Span) (line : UInt32) : Bool := s.startLine ≤ line && line ≤ s.endLine

def containsPosition (s : Span) (here : Location) : Bool := s.start ≤ here && here < s.stop

def contains (s other : Span) : Bool := s.start ≤ other.start && other.stop ≤ s.stop

/-- The number of lines touched, zero for a span that ends above its start. The one span whose
count is too large for a word covers every line from 0 to the last. -/
def lineCount (s : Span) : Except Overflow Nat :=
  if s.startLine ≤ s.endLine then
    let count := s.endLine.toNat - s.startLine.toNat + 1
    if count < 0x100000000 then .ok count else .error .add
  else .ok 0

/-- The columns between the two ends, zero when the end column lies before the start column. -/
def columnCount (s : Span) : Nat := s.endCol.toNat - s.startCol.toNat

end Span

end ProgramFlow
