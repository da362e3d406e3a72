import GraphRules.Data
import GraphRules.Json.Writer
import GraphRules.Yaml.Chars
import GraphRules.Yaml.Plain

/-! Data as YAML text in block form. Variants are tags. A text is plain when it reads back as
itself, a block of lines when it has several, and quoted otherwise. -/
namespace GraphRules.Yaml

/-- Why data cannot be written: a tag cannot be put on a tag. -/
inductive WriteError where
  | nestedVariants
  deriving DecidableEq, Inhabited

def WriteError.message : WriteError → String
  | .nestedVariants => "serializing nested enums in YAML is not supported yet"

def neighbored : Option Char → List Char → List (Option Char × Char × Option Char)
  | _, [] => []
  | p, c :: cs => (p, c, cs.head?) :: neighbored (some c) cs

def indicates : Option Char × Char × Option Char → Bool
  | (none, c, next) =>
    isOpening c || ((c = '?' || c = ':' || c = '-') && separatorOrEnd next)
  | (some p, c, next) => (c = ':' && separatorOrEnd next) || (c = '#' && isSeparator p)

structure Analysis where
  /-- Something in it would be read as an indicator. -/
  indicator : Bool
  special : Bool
  broken : Bool
  edgeBlank : Bool
  trailingSpace : Bool
  spaceThenBreak : Bool
  breakThenSpace : Bool

def hasPair (p q : Char → Bool) (cs : List Char) : Bool :=
  (cs.zip cs.tail).any fun (a, b) => p a && q b

def analyse (cs : List Char) : Analysis :=
  let isSpace (c : Char) : Bool := c = ' '
  let blank (c? : Option Char) : Bool := match c? with
    | some c => isSpace c || isBreak c
    | none => false
  { indicator := (neighbored none cs).any indicates || "---".toList.isPrefixOf cs ||
      "...".toList.isPrefixOf cs
    special := cs.any fun c => !isPrintable c
    broken := cs.any isBreak
    edgeBlank := blank cs.head? || blank cs.getLast?
    trailingSpace := cs.getLast? = some ' '
    spaceThenBreak := hasPair isSpace isBreak cs
    breakThenSpace := hasPair isBreak isSpace cs }

inductive Style where
  | plain | single | double | block
  deriving DecidableEq, Inhabited

/-- Whether a text without line feeds reads back as something else. -/
def misread (s : String) : Bool :=
  match resolve s with
  | .text _ => isPaddedNumber s.toList
  | _ => true

def styleOf (s : String) : Style :=
  let a := analyse s.toList
  let quoted : Style := if a.special || a.spaceThenBreak || a.breakThenSpace then .double
  else .single
  if '\n' ∈ s.toList then
    if a.special || a.spaceThenBreak || a.trailingSpace then .double else .block
  else if misread s || a.indicator || a.edgeBlank || a.broken || a.special then quoted
  else .plain

def upperHex (width n : Nat) : List Char := (Json.hexDigits width n).map Char.toUpper

def escapeLetter? (n : Nat) : Option Char :=
  [(0x00, '0'), (0x07, 'a'), (0x08, 'b'), (0x09, 't'), (0x0A, 'n'), (0x0B, 'v'),
    (0x0C, 'f'), (0x0D, 'r'), (0x1B, 'e'), (0x22, '"'), (0x5C, '\\'), (0x85, 'N'), (0xA0, '_'),
    (0x2028, 'L'), (0x2029, 'P')].lookup n

def escape (c : Char) : List Char :=
  if isPrintable c && !isBreak c && c ≠ '"' && c ≠ '\\' then [c]
  else
    let n := c.toNat
    match escapeLetter? n with
    | some l => ['\\', l]
    | none =>
      if n ≤ 0xFF then '\\' :: 'x' :: upperHex 2 n
      else if n ≤ 0xFFFF then '\\' :: 'u' :: upperHex 4 n
      else '\\' :: 'U' :: upperHex 8 n

def doubleQuoted (cs : List Char) : List Char := '"' :: cs.flatMap escape ++ ['"']

def blockLines (indent : Nat) : Bool → List Char → List Char
  | _, [] => []
  | fresh, c :: cs =>
    if isBreak c then c :: blockLines indent true cs
    else (if fresh then List.replicate indent ' ' else []) ++ c :: blockLines indent false cs

def endsWithBreak (cs : List Char) : Bool := (cs.getLast?.map isBreak).getD false

/-- A text between single quotes. A quote in it is written twice, and what follows a break is
indented. -/
def singleQuoted (indent : Nat) (cs : List Char) : List Char :=
  let doubled := cs.flatMap fun c => if c = '\'' then ['\'', '\''] else [c]
  let ending := if endsWithBreak cs then List.replicate indent ' ' else []
  '\'' :: blockLines indent false doubled ++ ending ++ ['\'']

/-- The signs after the bar of a block: the indentation if the first line would hide it, and what
becomes of the line feeds at the end. -/
def blockHints (cs : List Char) : List Char :=
  let lead := match cs.head? with
    | some c => if c = ' ' || isBreak c then ['2'] else []
    | none => []
  let chomp := match cs.reverse with
    | [] => ['-']
    | [c] => if isBreak c then ['+'] else ['-']
    | c :: d :: _ => if !isBreak c then ['-'] else if isBreak d then ['+'] else []
  lead ++ chomp

/-- A block with its lines indented below it. It ends with a line feed. -/
def blockText (indent : Nat) (cs : List Char) : List Char :=
  let body := blockLines indent true cs
  let ending := if endsWithBreak cs then [] else ['\n']
  '|' :: blockHints cs ++ '\n' :: body ++ ending

def textScalar (indent : Nat) (s : String) : String :=
  let cs := s.toList
  match styleOf s with
  | .plain => s ++ "\n"
  | .single => String.ofList (singleQuoted (indent + 2) cs) ++ "\n"
  | .double => String.ofList (doubleQuoted cs) ++ "\n"
  | .block => String.ofList (blockText (indent + 2) cs)

def floatText (x : Binary64) : String :=
  if x.isNaN then ".nan"
  else if x.isInfinite then (if x.isNegative then "-.inf" else ".inf")
  else Layout.json.render x

def blanksOf (n : Nat) : String := String.ofList (List.replicate n ' ')

/-- Where a value stands: in a sequence, after a key, or after a key on lines of its own. -/
inductive Position where
  | item | value | explicit
  deriving DecidableEq, Inhabited

/-- The indentation of a sequence inside a collection with a given indentation. After a key it is
not indented, unless it starts on the line of a colon alone. -/
def sequenceIndent (indent : Nat) (p : Position) (tag : Option String) : Nat :=
  match p, tag with
  | .value, _ => indent
  | .explicit, some _ => indent
  | _, _ => indent + 2

/-- Puts a collection after a dash, a key or a tag. After a dash or a colon alone, a collection
without a tag starts on the same line. -/
def attach (p : Position) (tag : Option String) (inner : Nat) (block : String) : String :=
  match p, tag with
  | .value, none => "\n" ++ block
  | _, none => " " ++ String.ofList (block.toList.drop inner)
  | _, some t => " !" ++ t ++ "\n" ++ block

def shortKeyLimit : Nat := 128

def isShortKey (name : String) : Bool :=
  name.utf8ByteSize ≤ shortKeyLimit && !name.toList.any isBreak

def attachScalar (tag : Option String) (text : String) : String :=
  match tag with
  | none => " " ++ text
  | some t => " !" ++ t ++ " " ++ text

mutual

def node (indent : Nat) (p : Position) (tag : Option String) : Data → Except WriteError String
  | .null => .ok (attachScalar tag "null\n")
  | .bool b => .ok (attachScalar tag (if b then "true\n" else "false\n"))
  | .int n => .ok (attachScalar tag (toString n ++ "\n"))
  | .float x => .ok (attachScalar tag (floatText x ++ "\n"))
  | .text s => .ok (attachScalar tag (textScalar indent s))
  | .list [] => .ok (attachScalar tag "[]\n")
  | .record [] => .ok (attachScalar tag "\x7b\x7d\n")
  | .list (d :: ds) => do
    let inner := sequenceIndent indent p tag
    let block ← sequenceBlock inner (d :: ds)
    pure (attach p tag inner block)
  | .record (f :: fs) => do
    let block ← mappingBlock (indent + 2) (f :: fs)
    pure (attach p tag (indent + 2) block)
  | .variant name content =>
    match tag with
    | some _ => .error .nestedVariants
    | none => node indent p (some name) content

def sequenceBlock (indent : Nat) : List Data → Except WriteError String
  | [] => .ok ""
  | d :: ds => do
    let first ← node indent .item none d
    let rest ← sequenceBlock indent ds
    pure (blanksOf indent ++ "-" ++ first ++ rest)

def mappingBlock (indent : Nat) : List (String × Data) → Except WriteError String
  | [] => .ok ""
  | (name, d) :: fs =>
    let key := textScalar indent name
    if isShortKey name then do
      let first ← node indent .value none d
      let rest ← mappingBlock indent fs
      pure (blanksOf indent ++ String.ofList key.toList.dropLast ++ ":" ++ first ++ rest)
    else do
      let first ← node indent .explicit none d
      let rest ← mappingBlock indent fs
      pure (blanksOf indent ++ "? " ++ key ++ blanksOf indent ++ ":" ++ first ++ rest)

end

def write : Data → Except WriteError String
  | .list (d :: ds) => sequenceBlock 0 (d :: ds)
  | .record (f :: fs) => mappingBlock 0 (f :: fs)
  | d => (node 0 .value none d).map fun s => String.ofList (s.toList.drop 1)

end GraphRules.Yaml
