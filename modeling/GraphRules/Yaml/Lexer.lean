import GraphRules.Yaml.Lines

/-! Cutting YAML text into tokens. Only a colon shows that what stands before it on its line is a
key, so the place of each possible key is kept, and the marks of the key are put there when its
colon comes. -/
namespace GraphRules.Yaml

structure PossibleKey where
  /-- It stands where only a key can stand. -/
  required : Bool
  /-- How many tokens come before it. -/
  position : Nat
  index : Nat
  line : Nat
  column : Nat
  deriving DecidableEq, Inhabited

structure Lexer where
  cursor : Cursor
  /-- The tokens so far, the last one first. -/
  tokens : List Token := []
  count : Nat := 0
  /-- The columns of the open blocks, the innermost first. -/
  indents : List Nat := []
  keyAllowed : Bool := true
  /-- The possible key among the open brackets. -/
  key? : Option PossibleKey := none
  /-- Those outside of each open bracket. -/
  outerKeys : List (Option PossibleKey) := []
  deriving Inhabited

namespace Lexer

def inFlow (l : Lexer) : Bool := !l.outerKeys.isEmpty

def push (l : Lexer) (t : Token) : Lexer := { l with tokens := t :: l.tokens, count := l.count + 1 }

def insertAt (l : Lexer) (position : Nat) (t : Token) : Lexer :=
  let n := l.count - position
  { l with tokens := l.tokens.take n ++ t :: l.tokens.drop n, count := l.count + 1 }

def moveTo (l : Lexer) (c : Cursor) : Lexer := { l with cursor := c }

def allowKey (l : Lexer) (b : Bool) : Lexer := { l with keyAllowed := b }

def openBlock (l : Lexer) (column position : Nat) (t : Token) : Lexer :=
  let deeper : Bool := match l.indents with
    | n :: _ => n < column
    | [] => true
  if !l.inFlow && deeper then { (l.insertAt position t) with indents := column :: l.indents } else l

def closeWhile (p : Nat → Bool) : List Nat → Lexer → Lexer
  | [], l => { l with indents := [] }
  | n :: ns, l => if p n then closeWhile p ns (l.push .blockEnd) else { l with indents := n :: ns }

def closeBlocks (l : Lexer) : Lexer :=
  if l.inFlow then l else closeWhile (fun n => l.cursor.column < n) l.indents l

def closeAllBlocks (l : Lexer) : Lexer :=
  if l.inFlow then l else closeWhile (fun _ => true) l.indents l

def dropKey (l : Lexer) : Option Lexer :=
  match l.key? with
  | some k => if k.required then none else some { l with key? := none }
  | none => some l

/-- A key stands on one line, and so many bytes at most come before its colon. -/
def keyLimit : Nat := 1024

def refresh (c : Cursor) : Option PossibleKey → Option (Option PossibleKey)
  | none => some none
  | some k =>
    if k.line < c.line || k.index + keyLimit < c.index then if k.required then none else some none
    else some (some k)

def refreshKeys (l : Lexer) : Option Lexer := do
  let key? ← refresh l.cursor l.key?
  let outerKeys ← l.outerKeys.mapM (refresh l.cursor)
  pure { l with key?, outerKeys }

def noteKey (l : Lexer) : Option Lexer :=
  if !l.keyAllowed then some l
  else do
    let c := l.cursor
    let required := !l.inFlow && l.indents.head? = some c.column
    let l ← l.dropKey
    pure { l with key? := some ⟨required, l.count, c.index, c.line, c.column⟩ }

/-- Passes over blanks, comments and line breaks. A tab is a blank only where no key can start. A
byte order mark may start a line, and takes up a column. -/
def skipGap : Nat → Lexer → Lexer
  | 0, l => l
  | fuel + 1, l =>
    let c := l.cursor
    let c := if c.column = 0 && c.isAt '\ufeff' then c.advance else c
    let tabs := l.inFlow || !l.keyAllowed
    let c := c.dropWhile fun d => d = ' ' || (tabs && d = '\t')
    let c := if c.isAt '#' then c.dropWhile fun d => !isBreak d else c
    if c.holds isBreak then skipGap fuel ((l.moveTo c.advance).allowKey (!l.inFlow || l.keyAllowed))
    else l.moveTo c

/-! Tags and directives -/

def isUriChar (c : Char) : Bool := isWordChar c || c ∈ ";/?:@&=+$.!~*'()".toList

def escapedByte (c : Cursor) : Option (Nat × Cursor) :=
  match c.rest with
  | '%' :: a :: b :: _ => (natIn? 16 [a, b]).map (·, c.skip 3)
  | _ => none

def charWidth? (n : Nat) : Option Nat :=
  if n < 0x80 then some 1
  else if 0xC0 ≤ n && n < 0xE0 then some 2
  else if 0xE0 ≤ n && n < 0xF0 then some 3
  else if 0xF0 ≤ n && n < 0xF8 then some 4
  else none

def furtherBytes : Nat → Cursor → Option (List UInt8 × Cursor)
  | 0, c => some ([], c)
  | k + 1, c => do
    let (n, c) ← escapedByte c
    if n < 0x80 || 0xC0 ≤ n then none
    else do
      let (bs, c) ← furtherBytes k c
      pure (n.toUInt8 :: bs, c)

def escapedBytes (c : Cursor) : Option (List UInt8 × Cursor) := do
  let (n, c) ← escapedByte c
  let width ← charWidth? n
  let (bs, c) ← furtherBytes (width - 1) c
  pure (n.toUInt8 :: bs, c)

def readUri (commas : Bool) : Nat → Cursor → Option (List UInt8 × Cursor)
  | 0, c => some ([], c)
  | fuel + 1, c =>
    match c.rest with
    | [] => some ([], c)
    | d :: _ =>
      if d = '%' then do
        let (bs, c) ← escapedBytes c
        let (more, c) ← readUri commas fuel c
        pure (bs ++ more, c)
      else if isUriChar d || (commas && (d = ',' || d = '[' || d = ']')) then do
        let (more, c) ← readUri commas fuel c.advance
        pure (d.toNat.toUInt8 :: more, c)
      else some ([], c)

def uri (commas : Bool) (c : Cursor) : Option (List UInt8 × Cursor) :=
  readUri commas c.rest.length c

def readHandle (c : Cursor) : Option (String × Cursor) :=
  if !c.isAt '!' then none
  else
    let (name, c) := c.advance.takeWhile isWordChar
    if c.isAt '!' then some (String.ofList ('!' :: name ++ ['!']), c.advance)
    else some (String.ofList ('!' :: name), c)

def readTag (inFlow : Bool) (c : Cursor) : Option (Token × Cursor) := do
  let (t, c) ← match c.rest with
    | '!' :: '<' :: _ => do
      let (bs, c) ← uri true (c.skip 2)
      if bs.isEmpty || !c.isAt '>' then none else pure (Token.tag "" (.ofBytes bs), c.advance)
    | _ => do
      let (handle, c) ← readHandle c
      let (bs, c) ← uri false c
      if 2 ≤ handle.length && handle.toList.getLast? = some '!' then
        if bs.isEmpty then none else pure (Token.tag handle (.ofBytes bs), c)
      else
        let suffix := (Tag.ofString (String.ofList (handle.toList.drop 1))).append (.ofBytes bs)
        pure (if suffix.bytes.isEmpty then Token.tag "" .mark else Token.tag "!" suffix, c)
  if c.atSpace || (inFlow && c.isAt ',') then pure (t, c) else none

def readVersionPart (c : Cursor) : Option (Nat × Cursor) := do
  let (ds, c) := c.takeWhile Char.isDigit
  if 9 < ds.length then none
  else do
    let n ← natIn? 10 ds
    pure (n, c)

def readDirective (c : Cursor) : Option (Token × Cursor) := do
  let (name, c) := c.advance.takeWhile isWordChar
  if !c.atSpace then none
  else do
    let c := c.dropWhile isBlank
    let (t, c) ← match String.ofList name with
      | "YAML" => do
        let (major, c) ← readVersionPart c
        if !c.isAt '.' then none
        else do
          let (minor, c) ← readVersionPart c.advance
          pure (Token.version major minor, c)
      | "TAG" => do
        let (handle, c) ← readHandle c
        if (handle ≠ "!" && handle.toList.getLast? ≠ some '!') || !c.holds isBlank then none
        else do
          let (bs, c) ← uri true (c.dropWhile isBlank)
          if bs.isEmpty || !c.atSpace then none else pure (Token.tagPrefix handle (.ofBytes bs), c)
      | _ => none
    let c ← finishLine c
    pure (t, c)

def readAnchor (c : Cursor) : Option (String × Cursor) :=
  let (name, c) := c.takeWhile isWordChar
  if name.isEmpty then none
  else if c.atSpace || c.holds (fun d => d ∈ "?:,]\x7d%@\x60".toList) then
    some (String.ofList name, c)
  else none

/-! Tokens -/

def outermost (l : Lexer) : Option Lexer := do
  let l ← l.closeAllBlocks.dropKey
  pure (l.allowKey false)

def openFlow (l : Lexer) (t : Token) : Option Lexer := do
  let l ← l.noteKey
  pure { ((l.push t).moveTo l.cursor.advance).allowKey true with
    key? := none
    outerKeys := l.key? :: l.outerKeys }

def closeFlow (l : Lexer) (t : Token) : Option Lexer := do
  let l ← l.dropKey
  let l := ((l.push t).moveTo l.cursor.advance).allowKey false
  match l.outerKeys with
  | k? :: ks => pure { l with key? := k?, outerKeys := ks }
  | [] => pure { l with key? := none }

def comma (l : Lexer) : Option Lexer := do
  let l ← l.dropKey
  pure (((l.push .comma).moveTo l.cursor.advance).allowKey true)

def opener (l : Lexer) (block t : Token) (allow : Bool) : Option Lexer := do
  if !l.inFlow && !l.keyAllowed then none
  else do
    let l ← (l.openBlock l.cursor.column l.count block).dropKey
    pure (((l.push t).moveTo l.cursor.advance).allowKey allow)

/-- A colon. It ends the possible key, or starts the value of a key marked before. -/
def colon (l : Lexer) : Option Lexer :=
  let finish (l : Lexer) (allow : Bool) : Lexer :=
    ((l.push .value).moveTo l.cursor.advance).allowKey allow
  match l.key? with
  | some k =>
    let l := (l.insertAt k.position .key).openBlock k.column k.position .blockMapping
    some (finish { l with key? := none } false)
  | none =>
    if l.inFlow then some (finish l false)
    else if l.keyAllowed then
      some (finish (l.openBlock l.cursor.column l.count .blockMapping) true)
    else none

def keyed (l : Lexer) (read : Cursor → Option (Token × Cursor)) : Option Lexer := do
  let l ← l.noteKey
  let (t, c) ← read l.cursor
  pure (((l.push t).moveTo c).allowKey false)

def block (l : Lexer) : Option Lexer := do
  let l ← l.dropKey
  let (w, s, c) ← blockScalar l.indents.head? l.cursor
  pure (((l.push (.scalar w s)).moveTo c).allowKey true)

def plain (l : Lexer) : Option Lexer := do
  let l ← l.noteKey
  let limit := match l.indents with
    | n :: _ => n + 1
    | [] => 0
  let (s, broken, c) ← plainScalar l.inFlow limit l.cursor
  pure (((l.push (.scalar .plain s)).moveTo c).allowKey broken)

def startsPlain (inFlow : Bool) (d : Char) (next : Option Char) : Bool :=
  if d = '-' then !((next.map isBlank).getD false)
  else if d = '?' || d = ':' then !inFlow && !separatorOrEnd next
  else !isSeparator d && !isOpening d

def document (l : Lexer) (t : Token) : Option Lexer := do
  let l ← l.outermost
  pure ((l.push t).moveTo (l.cursor.skip 3))

/-- The next token and what is put before it. The text is not at its end. -/
def token (l : Lexer) (d : Char) : Option Lexer :=
  let c := l.cursor
  let next := (c.rest.drop 1).head?
  if c.column = 0 && d = '%' then do
    let l ← l.outermost
    let (t, c) ← readDirective l.cursor
    pure ((l.push t).moveTo c)
  else if c.atDocumentMark then l.document (if d = '-' then .documentStart else .documentEnd)
  else if d = '[' then l.openFlow .flowSequence
  else if d = '\x7b' then l.openFlow .flowMapping
  else if d = ']' then l.closeFlow .flowSequenceEnd
  else if d = '\x7d' then l.closeFlow .flowMappingEnd
  else if d = ',' then l.comma
  else if d = '-' && separatorOrEnd next then l.opener .blockSequence .entry true
  else if d = '?' && (l.inFlow || separatorOrEnd next) then l.opener .blockMapping .key (!l.inFlow)
  else if d = ':' && (l.inFlow || separatorOrEnd next) then l.colon
  else if d = '*' then l.keyed fun c => (readAnchor c.advance).map fun (s, c) => (.alias s, c)
  else if d = '&' then l.keyed fun c => (readAnchor c.advance).map fun (s, c) => (.anchor s, c)
  else if d = '!' then l.keyed (readTag l.inFlow)
  else if (d = '|' || d = '>') && !l.inFlow then l.block
  else if d = '\'' || d = '"' then
    l.keyed fun c => (quotedScalar c).map fun (s, c) => (.scalar .quoted s, c)
  else if startsPlain l.inFlow d next then l.plain
  else none

/-- All tokens, the last one first. Each step takes at least one character. -/
def run : Nat → Lexer → Option (List Token)
  | 0, _ => none
  | fuel + 1, l => do
    let l ← (skipGap (l.cursor.rest.length + 1) l).refreshKeys
    let l := l.closeBlocks
    match l.cursor.peek with
    | none => (l.outermost).map Lexer.tokens
    | some d => run fuel (← l.token d)

end Lexer

def tokens (text : String) : Option (List Token) :=
  let cs := text.toList
  if cs.all isAllowed then
    (Lexer.run (cs.length + 1) { cursor := { rest := cs } }).map List.reverse
  else none

end GraphRules.Yaml
