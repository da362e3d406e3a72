import GraphRules.Data

/-! Data as JSON text, on one line or indented by two blanks a level. A variant is an object with
one member. -/
namespace GraphRules.Json

def hexDigits (width n : Nat) : List Char :=
  let ds := Nat.toDigits 16 n
  List.replicate (width - ds.length) '0' ++ ds

def escape (c : Char) : List Char :=
  if c = '"' then ['\\', '"']
  else if c = '\\' then ['\\', '\\']
  else if c = '\n' then ['\\', 'n']
  else if c = '\r' then ['\\', 'r']
  else if c = '\t' then ['\\', 't']
  else if c = '\x08' then ['\\', 'b']
  else if c = '\x0c' then ['\\', 'f']
  else if c.toNat < 0x20 then ['\\', 'u'] ++ hexDigits 4 c.toNat
  else [c]

def quote (s : String) : String := String.ofList ('"' :: s.toList.flatMap escape ++ ['"'])

/-- Only finite numbers can be written. -/
def number (x : Binary64) : String := if x.isFinite then Layout.json.render x else "null"

def leftBrace : String := "\x7b"

def rightBrace : String := "\x7d"

mutual

def compact : Data → String
  | .null => "null"
  | .bool b => if b then "true" else "false"
  | .int n => toString n
  | .float x => number x
  | .text s => quote s
  | .list items => "[" ++ ",".intercalate (compactItems items) ++ "]"
  | .record fields => leftBrace ++ ",".intercalate (compactFields fields) ++ rightBrace
  | .variant name content => leftBrace ++ quote name ++ ":" ++ compact content ++ rightBrace

def compactItems : List Data → List String
  | [] => []
  | d :: ds => compact d :: compactItems ds

def compactFields : List (String × Data) → List String
  | [] => []
  | (name, d) :: fields => (quote name ++ ":" ++ compact d) :: compactFields fields

end

def block (indent : String) (left right : String) (parts : List String) : String :=
  match parts with
  | [] => left ++ right
  | parts =>
    let inner := "\n" ++ indent ++ "  "
    left ++ inner ++ ("," ++ inner).intercalate parts ++ "\n" ++ indent ++ right

mutual

def pretty (indent : String) : Data → String
  | .null => "null"
  | .bool b => if b then "true" else "false"
  | .int n => toString n
  | .float x => number x
  | .text s => quote s
  | .list items => block indent "[" "]" (prettyItems (indent ++ "  ") items)
  | .record fields => block indent leftBrace rightBrace (prettyFields (indent ++ "  ") fields)
  | .variant name content =>
    block indent leftBrace rightBrace [quote name ++ ": " ++ pretty (indent ++ "  ") content]

def prettyItems (indent : String) : List Data → List String
  | [] => []
  | d :: ds => pretty indent d :: prettyItems indent ds

def prettyFields (indent : String) : List (String × Data) → List String
  | [] => []
  | (name, d) :: fields => (quote name ++ ": " ++ pretty indent d) :: prettyFields indent fields

end

end GraphRules.Json
