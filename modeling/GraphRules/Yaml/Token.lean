import GraphRules.Yaml.Chars
import GraphRules.Yaml.Plain

/-! The marks and scalars that YAML text is made of. The start and the end of a block, which the
text shows by indentation only, are tokens too. -/
namespace GraphRules.Yaml

inductive Written where
  | plain | quoted | literal | folded
  deriving DecidableEq, Inhabited

structure Tag where
  bytes : List UInt8
  deriving DecidableEq, Inhabited

namespace Tag

def ofString (s : String) : Tag := ⟨s.toUTF8.data.toList⟩

def mark : Tag := ofString "!"

def isLocal (t : Tag) : Bool := t.bytes.head? = mark.bytes.head?

def isText (t : Tag) : Bool := (String.fromUTF8? ⟨t.bytes.toArray⟩).isSome

/-- A zero byte ends a tag. -/
def ofBytes (bs : List UInt8) : Tag := ⟨bs.takeWhile (· ≠ 0)⟩

def append (s t : Tag) : Tag := ⟨s.bytes ++ t.bytes⟩

end Tag

inductive Token where
  /-- The version of YAML that the text announces. -/
  | version (major minor : Nat)
  /-- A short form for the first part of tags. -/
  | tagPrefix (handle : String) (first : Tag)
  | documentStart
  | documentEnd
  | blockSequence
  | blockMapping
  | blockEnd
  | flowSequence
  | flowSequenceEnd
  | flowMapping
  | flowMappingEnd
  /-- The dash before an item. -/
  | entry
  /-- The comma after an item. -/
  | comma
  | key
  | value
  | alias (name : String)
  | anchor (name : String)
  | tag (handle : String) (suffix : Tag)
  | scalar (written : Written) (text : String)
  deriving DecidableEq, Inhabited

/-- What is left of a text, and where it starts: the bytes before it, and its line and column from
zero. -/
structure Cursor where
  rest : List Char
  index : Nat := 0
  line : Nat := 0
  column : Nat := 0
  deriving Inhabited

namespace Cursor

/-- Moves on by one character. A carriage return with its line feed is one. -/
def advance (c : Cursor) : Cursor :=
  match c.rest with
  | [] => c
  | '\r' :: '\n' :: rest => ⟨rest, c.index + 2, c.line + 1, 0⟩
  | d :: rest =>
    if isBreak d then ⟨rest, c.index + d.utf8Size, c.line + 1, 0⟩
    else ⟨rest, c.index + d.utf8Size, c.line, c.column + 1⟩

def skip : Nat → Cursor → Cursor
  | 0, c => c
  | n + 1, c => skip n c.advance

def peek (c : Cursor) : Option Char := c.rest.head?

def isAt (c : Cursor) (d : Char) : Bool := c.peek = some d

def holds (p : Char → Bool) (c : Cursor) : Bool :=
  match c.rest with
  | d :: _ => p d
  | [] => false

def atSpace (c : Cursor) : Bool := separatorOrEnd c.peek

def atLineEnd (c : Cursor) : Bool := !c.holds fun d => !isBreak d

def takeWhile (p : Char → Bool) (c : Cursor) : List Char × Cursor :=
  let cs := c.rest.takeWhile p
  (cs, c.skip cs.length)

def dropWhile (p : Char → Bool) (c : Cursor) : Cursor := (c.takeWhile p).2

def atDocumentMark (c : Cursor) : Bool :=
  c.column = 0 &&
    match c.rest with
    | '-' :: '-' :: '-' :: rest => separatorOrEnd rest.head?
    | '.' :: '.' :: '.' :: rest => separatorOrEnd rest.head?
    | _ => false

/-- What a line break stands for: the separators of lines and paragraphs for themselves, all others
for a line feed. -/
def lineBreak (c : Cursor) : List Char :=
  match c.rest with
  | [] => []
  | d :: _ => if d.toNat = 0x2028 || d.toNat = 0x2029 then [d] else if isBreak d then ['\n'] else []

end Cursor

end GraphRules.Yaml
