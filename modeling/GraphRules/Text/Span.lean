/-! Places in a text. Offsets count bytes; lines and columns start at one, and columns count
characters. -/
namespace GraphRules

structure Place where
  offset : Nat := 0
  line : Nat := 1
  column : Nat := 1
  deriving DecidableEq, Inhabited

/-- The place after one more character. A line feed ends a line, alone or after a carriage return.
-/
def Place.next (p : Place) (c : Char) : Place :=
  if c = '\n' then ⟨p.offset + 1, p.line + 1, 1⟩
  else ⟨p.offset + c.utf8Size, p.line, p.column + 1⟩

/-- A stretch of text: where it starts and ends, and the line and column of its start. -/
structure Span where
  start : Nat := 0
  stop : Nat := 0
  line : Nat := 0
  column : Nat := 0
  deriving DecidableEq, Inhabited

namespace Span

def between (a b : Place) : Span := ⟨a.offset, b.offset, a.line, a.column⟩

def text (s : Span) : String := s!"{s.line}:{s.column}"

end Span

end GraphRules
