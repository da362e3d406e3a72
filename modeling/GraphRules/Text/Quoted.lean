import GraphRules.Text.Printable

/-! Strings between double quotes. Writing escapes the quote, the backslash and every character that
would not show by itself; reading drops the backslash of an escape and knows only the letters `n`
and `t`. -/
namespace GraphRules.Text

def codePoint (c : Char) : List Char :=
  ['\\', 'u', '\x7b'] ++ Nat.toDigits 16 c.toNat ++ ['\x7d']

def escape (c : Char) : List Char :=
  if c = '\x00' then ['\\', '0']
  else if c = '\t' then ['\\', 't']
  else if c = '\r' then ['\\', 'r']
  else if c = '\n' then ['\\', 'n']
  else if c = '"' then ['\\', '"']
  else if c = '\\' then ['\\', '\\']
  else if isCombining c || !isPrintable c then codePoint c
  else [c]

def encode (cs : List Char) : List Char := cs.flatMap escape

def quote (s : String) : String := String.ofList ('"' :: encode s.toList ++ ['"'])

def unescape (c : Char) : Char :=
  if c = 'n' then '\n' else if c = 't' then '\t' else c

def decode : List Char → List Char
  | [] => []
  | '\\' :: [] => []
  | '\\' :: c :: cs => unescape c :: decode cs
  | c :: cs => c :: decode cs

end GraphRules.Text
