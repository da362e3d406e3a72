import GraphRules.Json.Tree

/-! Reading JSON text. -/
namespace GraphRules.Json

def isBlank (c : Char) : Bool := c = ' ' || c = '\n' || c = '\t' || c = '\r'

def skipBlanks (cs : List Char) : List Char := cs.dropWhile isBlank

def hexValue? (c : Char) : Option Nat :=
  if c.isDigit then some (c.toNat - '0'.toNat)
  else if 'a' ≤ c && c ≤ 'f' then some (c.toNat - 'a'.toNat + 10)
  else if 'A' ≤ c && c ≤ 'F' then some (c.toNat - 'A'.toNat + 10)
  else none

/-- Four hexadecimal digits. They are missing when fewer than four bytes are left. -/
def hexFour (cs : List Char) : Except Fault (Nat × List Char) :=
  let ds := cs.take 4
  if ds.foldl (fun n c => n + c.utf8Size) 0 < 4 then .error .truncated
  else
    match ds.mapM hexValue? with
    | some [a, b, c, d] => .ok (((a * 16 + b) * 16 + c) * 16 + d, cs.drop 4)
    | _ => .error .malformed

def simpleEscape? (c : Char) : Option Char :=
  if c = '"' || c = '\\' || c = '/' then some c
  else if c = 'b' then some '\x08'
  else if c = 'f' then some '\x0c'
  else if c = 'n' then some '\n'
  else if c = 'r' then some '\r'
  else if c = 't' then some '\t'
  else none

def isLeading (n : Nat) : Bool := 0xD800 ≤ n && n ≤ 0xDBFF

def isTrailing (n : Nat) : Bool := 0xDC00 ≤ n && n ≤ 0xDFFF

/-- The character of a code point escape whose digits come next; none when it is half of a pair
whose other half is missing. -/
def codeEscape (cs : List Char) : Except Fault (Option Char × List Char) := do
  let (n, cs) ← hexFour cs
  if isTrailing n then return (none, cs)
  if !isLeading n then return (some (Char.ofNat n), cs)
  match cs with
  | [] => throw .truncated
  | '\\' :: [] => throw .truncated
  | '\\' :: 'u' :: more =>
    let (m, rest) ← hexFour more
    if isTrailing m then
      return (some (Char.ofNat (0x10000 + (n - 0xD800) * 0x400 + (m - 0xDC00))), rest)
    else return (none, cs)
  | _ => return (none, cs)

/-- The rest of a string after its opening quote, at most `fuel` characters of it. The value is none
once something in it stood for no character. -/
def stringBody : Nat → Option (List Char) → List Char → Except Stop (Option String × List Char)
  | 0, _, _ => .error (.both .truncated)
  | fuel + 1, acc, cs =>
    -- who holds the string has stopped where it lost its value
    let fail (f : Fault) : Except Stop (Option String × List Char) :=
      .error ⟨if acc.isNone then .malformed else f, f⟩
    match cs with
    | [] => fail .truncated
    | '"' :: cs => .ok (acc.map fun a => String.ofList a.reverse, cs)
    | '\\' :: [] => fail .truncated
    | '\\' :: 'u' :: cs =>
      match codeEscape cs with
      | .error f => fail f
      | .ok (c?, cs) => stringBody fuel (do let a ← acc; let c ← c?; pure (c :: a)) cs
    | '\\' :: c :: cs =>
      match simpleEscape? c with
      | some c => stringBody fuel (acc.map (c :: ·)) cs
      | none => fail .malformed
    | c :: cs => if c.toNat < 0x20 then fail .malformed else stringBody fuel (acc.map (c :: ·)) cs

def readString (cs : List Char) : Except Stop (Option String × List Char) :=
  stringBody (cs.length + 1) (some []) cs

def digits (cs : List Char) : Except Fault (List Char × List Char) :=
  match splitDigits cs with
  | ([], []) => .error .truncated
  | ([], _) => .error .malformed
  | (ds, rest) => .ok (ds, rest)

def readFraction : List Char → Except Fault (Option (List Char) × List Char)
  | '.' :: cs => do
    let (ds, rest) ← digits cs
    pure (some ds, rest)
  | cs => pure (none, cs)

def readExponent : List Char → Except Fault (Option (Bool × List Char) × List Char)
  | c :: cs =>
    if c = 'e' || c = 'E' then do
      let (negative, cs) := splitSign cs
      let (ds, rest) ← digits cs
      pure (some (negative, ds), rest)
    else pure (none, c :: cs)
  | [] => pure (none, [])

def readLiteral (cs : List Char) : Except Fault (Literal × List Char) := do
  let (negative, cs) := match cs with
    | '-' :: cs => (true, cs)
    | cs => (false, cs)
  let (whole, cs) ← digits cs
  if whole.head? = some '0' && 1 < whole.length then throw .malformed
  let (fraction?, cs) ← readFraction cs
  let (exponent?, cs) ← readExponent cs
  pure ({ negative, whole, fraction?, exponent? }, cs)

/-- A number that is passed over is never cut: where it should go on, the end is no digit. -/
def readNumber (cs : List Char) : Except Stop (Literal × List Char) :=
  (readLiteral cs).mapError fun f => ⟨f, .malformed⟩

def readWord : List Char → List Char → Except Fault (List Char)
  | [], cs => .ok cs
  | _ :: _, [] => .error .truncated
  | w :: ws, c :: cs => if w = c then readWord ws cs else .error .malformed

abbrev Reading (α : Type) := α × Option (List Char)

def ofExcept (f : α → Tree) : Except Stop (α × List Char) → Reading Tree
  | .ok (a, cs) => (f a, some cs)
  | .error s => (.stop s, none)

def ofWord (t : Tree) : Except Fault (List Char) → Reading Tree
  | .ok cs => (t, some cs)
  | .error f => (.stop (.both f), none)

mutual

def readValue : Nat → List Char → Reading Tree
  | 0, _ => (.stop (.both .truncated), none)
  | fuel + 1, cs =>
    match skipBlanks cs with
    | [] => (.stop (.both .truncated), none)
    | '"' :: cs => ofExcept .string (readString cs)
    | '[' :: cs =>
      let (elements, ending, rest) := readElements fuel true cs
      (.array elements ending, rest)
    | '\x7b' :: cs =>
      let (members, ending, rest) := readMembers fuel true cs
      (.object members ending, rest)
    | 'n' :: cs => ofWord .null (readWord ['u', 'l', 'l'] cs)
    | 't' :: cs => ofWord (.bool true) (readWord ['r', 'u', 'e'] cs)
    | 'f' :: cs => ofWord (.bool false) (readWord ['a', 'l', 's', 'e'] cs)
    | c :: cs =>
      if c = '-' || c.isDigit then ofExcept .number (readNumber (c :: cs))
      else (.stop (.both .malformed), none)

def readElements : Nat → Bool → List Char → List Tree × Reading (Option Stop)
  | 0, _, _ => ([], some (.both .truncated), none)
  | fuel + 1, first, cs =>
    match skipBlanks cs, first with
    | ']' :: cs, _ => ([], none, some cs)
    | [], _ => ([], some (.both .truncated), none)
    | cs, true => readElement fuel cs
    | ',' :: cs, false =>
      match skipBlanks cs with
      | ']' :: _ => ([.stop (.both .malformed)], none, none)
      | cs => readElement fuel cs
    | _, false => ([], some (.both .malformed), none)

def readElement : Nat → List Char → List Tree × Reading (Option Stop)
  | 0, _ => ([], some (.both .truncated), none)
  | fuel + 1, cs =>
    match readValue fuel cs with
    | (v, none) => ([v], none, none)
    | (v, some cs) =>
      let (vs, ending) := readElements fuel false cs
      (v :: vs, ending)

def readMembers : Nat → Bool → List Char → List (Option String × Tree) × Reading (Option Stop)
  | 0, _, _ => ([], some (.both .truncated), none)
  | fuel + 1, first, cs =>
    match skipBlanks cs, first with
    | '\x7d' :: cs, _ => ([], none, some cs)
    | [], _ => ([], some (.both .truncated), none)
    | cs, true => readMember fuel cs
    | ',' :: cs, false => readMember fuel (skipBlanks cs)
    | _, false => ([], some (.both .malformed), none)

def readMember : Nat → List Char → List (Option String × Tree) × Reading (Option Stop)
  | 0, _ => ([], some (.both .truncated), none)
  | _, [] => ([], some (.both .truncated), none)
  | fuel + 1, '"' :: cs =>
    match readString cs with
    | .error s => ([], some s, none)
    | .ok (key?, cs) =>
      match skipBlanks cs with
      | ':' :: cs =>
        match readValue fuel cs with
        | (v, none) => ([(key?, v)], none, none)
        | (v, some cs) =>
          let (ms, ending) := readMembers fuel false cs
          ((key?, v) :: ms, ending)
      | [] => ([(key?, .stop (.both .truncated))], none, none)
      | _ => ([(key?, .stop (.both .malformed))], none, none)
  | _, _ => ([], some (.both .malformed), none)

end

/-- The tree of a text, and whether something follows it. Each character takes at most four steps.
-/
def read (text : String) : Tree × Bool :=
  let cs := text.toList
  match readValue (4 * cs.length + 4) cs with
  | (v, some rest) => (v, !(skipBlanks rest).isEmpty)
  | (v, none) => (v, false)

end GraphRules.Json
