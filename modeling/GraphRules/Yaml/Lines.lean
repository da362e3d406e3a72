import GraphRules.Yaml.Token

/-! Scalars over several lines. A single line break between two words is a blank, and of several the
first is dropped. -/
namespace GraphRules.Yaml

structure Gap where
  blanks : List Char := []
  breaks : List (List Char) := []
  deriving Inhabited

namespace Gap

def fold (g : Gap) : List Char :=
  match g.breaks with
  | [] => g.blanks
  | [['\n']] => [' ']
  | ['\n'] :: more => more.flatten
  | breaks => breaks.flatten

/-- Reads at most `fuel` blanks and breaks. Blanks after a break are indentation, in which no tab
may stand left of the column `limit`. `broken` says that a break has been passed already. -/
def read (limit : Nat) : Nat → Bool → Gap → Cursor → Option (Gap × Cursor)
  | 0, _, g, c => some (g, c)
  | fuel + 1, broken, g, c =>
    match c.peek with
    | none => some (g, c)
    | some d =>
      if isBlank d then
        if broken && d = '\t' && c.column < limit then none
        else if broken then read limit fuel true g c.advance
        else read limit fuel false { g with blanks := g.blanks ++ [d] } c.advance
      else if isBreak d then
        read limit fuel true ⟨[], g.breaks ++ [c.lineBreak]⟩ c.advance
      else some (g, c)

end Gap

/-! Plain scalars -/

/-- The characters of a word in a plain scalar. Inside brackets their marks end it, and a colon
right before one of them is a fault. -/
def plainWord (inFlow : Bool) : Nat → List Char → Cursor → Option (List Char × Cursor)
  | 0, acc, c => some (acc, c)
  | fuel + 1, acc, c =>
    match c.rest with
    | [] => some (acc, c)
    | d :: rest =>
      if isSeparator d then some (acc, c)
      else if inFlow && d = ':' &&
        ((rest.head?.map fun e => isFlowMark e || e = '?').getD false) then none
      else if d = ':' && separatorOrEnd rest.head? then some (acc, c)
      else if inFlow && isFlowMark d then some (acc, c)
      else plainWord inFlow fuel (d :: acc) c.advance

/-- The words of a plain scalar, the last characters first, and whether line breaks follow it. Its
further lines are indented at least to `limit`. -/
def plainWords (inFlow : Bool) (limit : Nat) :
    Nat → List Char → Gap → Cursor → Option (List Char × Bool × Cursor)
  | 0, acc, g, c => some (acc, !g.breaks.isEmpty, c)
  | fuel + 1, acc, g, c =>
    let stop : Option (List Char × Bool × Cursor) := some (acc, !g.breaks.isEmpty, c)
    if c.atDocumentMark || c.isAt '#' then stop
    else
      match plainWord inFlow (c.rest.length) [] c with
      | none => none
      | some ([], _) => stop
      | some (word, c) =>
        let acc := word ++ (g.fold.reverse ++ acc)
        if !c.holds (fun d => isBlank d || isBreak d) then some (acc, false, c)
        else
          match Gap.read limit c.rest.length false {} c with
          | none => none
          | some (g, c) =>
            if !inFlow && c.column < limit then some (acc, !g.breaks.isEmpty, c)
            else plainWords inFlow limit fuel acc g c

def plainScalar (inFlow : Bool) (limit : Nat) (c : Cursor) : Option (String × Bool × Cursor) :=
  (plainWords inFlow limit c.rest.length [] {} c).map fun (acc, broken, c) =>
    (String.ofList acc.reverse, broken, c)

/-! Quoted scalars -/

def charOf? (n : Nat) : Option Char := if n.isValidChar then some (Char.ofNat n) else none

def escapeWidth? : Char → Option Nat
  | 'x' => some 2
  | 'u' => some 4
  | 'U' => some 8
  | _ => none

def escapedChar? (c : Char) : Option Char :=
  [('0', '\x00'), ('a', '\x07'), ('b', '\x08'), ('t', '\t'), ('\t', '\t'),
    ('n', '\n'), ('v', '\x0b'), ('f', '\x0c'), ('r', '\r'), ('e', '\x1b'), (' ', ' '), ('"', '"'),
    ('/', '/'), ('\\', '\\'),
    ('N', '\u0085'), ('_', '\u00a0'), ('L', '\u2028'), ('P', '\u2029')].lookup c

def readEscape (c : Cursor) : Option (Char × Cursor) := do
  let letter ← c.peek
  match escapeWidth? letter with
  | some width =>
    let digits := (c.rest.drop 1).take width
    if digits.length ≠ width then none
    else do
      let n ← natIn? 16 digits
      let d ← charOf? n
      pure (d, c.skip (width + 1))
  | none => do
    let d ← escapedChar? letter
    pure (d, c.advance)

def quotedBody (double : Bool) : Nat → List Char → Cursor → Option (List Char × Cursor)
  | 0, _, _ => none
  | fuel + 1, acc, c =>
    if c.atDocumentMark then none
    else
      match c.rest with
      | [] => none
      | d :: rest =>
        if isBlank d || isBreak d then do
          let (g, c) ← Gap.read 0 c.rest.length false {} c
          quotedBody double fuel (g.fold.reverse ++ acc) c
        else if !double && d = '\'' && rest.head? = some '\'' then
          quotedBody double fuel ('\'' :: acc) (c.skip 2)
        else if d = (if double then '"' else '\'') then some (acc, c.advance)
        else if double && d = '\\' then
          if c.advance.holds isBreak then do
            -- an escaped line break and the indentation after it stand for nothing
            let (g, c) ← Gap.read 0 c.rest.length true {} (c.skip 2)
            quotedBody double fuel (g.breaks.flatten.reverse ++ acc) c
          else do
            let (e, c) ← readEscape c.advance
            quotedBody double fuel (e :: acc) c
        else quotedBody double fuel (d :: acc) c.advance

def quotedScalar (c : Cursor) : Option (String × Cursor) :=
  (quotedBody (c.isAt '"') (c.rest.length + 1) [] c.advance).map fun (acc, c) =>
    (String.ofList acc.reverse, c)

/-! Block scalars -/

inductive Chomp where
  | strip | clip | keep
  deriving DecidableEq, Inhabited

structure BlockHeader where
  chomp : Chomp := .clip
  /-- How far the lines are indented beyond the block around them, if that is said. -/
  increment? : Option Nat := none

def blockHeader : Nat → Option Chomp → Option Nat → Cursor → Option (BlockHeader × Cursor)
  | 0, chomp?, increment?, c => some (⟨chomp?.getD .clip, increment?⟩, c)
  | fuel + 1, chomp?, increment?, c =>
    match c.peek, chomp?, increment? with
    | some '+', none, _ => blockHeader fuel (some .keep) increment? c.advance
    | some '-', none, _ => blockHeader fuel (some .strip) increment? c.advance
    | some d, _, none =>
      if d.isDigit then
        if d = '0' then none else blockHeader fuel chomp? (some (d.toNat - '0'.toNat)) c.advance
      else some (⟨chomp?.getD .clip, increment?⟩, c)
    | _, _, _ => some (⟨chomp?.getD .clip, increment?⟩, c)

def finishLine (c : Cursor) : Option Cursor :=
  let c := c.dropWhile isBlank
  let c := if c.isAt '#' then c.dropWhile fun d => !isBreak d else c
  if c.atLineEnd then some c.advance else none

/-- Empty lines and the indentation of the next line. Gives the line breaks and the largest
indentation seen. A tab in the indentation is a fault. -/
def blockGap (indent? : Option Nat) :
    Nat → List Char → Nat → Cursor → Option (List Char × Nat × Cursor)
  | 0, breaks, deepest, c => some (breaks, deepest, c)
  | fuel + 1, breaks, deepest, c =>
    let blanks := (c.rest.takeWhile (· = ' ')).length
    let c := c.skip (match indent? with
      | some n => min blanks (n - c.column)
      | none => blanks)
    let deepest := max deepest c.column
    let within : Bool := match indent? with
      | some n => c.column < n
      | none => true
    if within && c.isAt '\t' then none
    else if c.holds isBreak then blockGap indent? fuel (breaks ++ c.lineBreak) deepest c.advance
    else some (breaks, deepest, c)

/-- The lines of a block scalar, the last characters first, with the last line break and the empty
lines after it. `lead` is the line break before the line at hand and `indented` says whether the
line before it starts with a blank: such lines are not folded. -/
def blockBody (literal : Bool) (indent : Nat) :
    Nat → List Char → List Char → List Char → Bool → Cursor →
      Option (List Char × List Char × List Char × Cursor)
  | 0, acc, lead, trail, _, c => some (acc, lead, trail, c)
  | fuel + 1, acc, lead, trail, indented, c =>
    if c.column ≠ indent || c.rest.isEmpty then some (acc, lead, trail, c)
    else do
      let blank := c.holds isBlank
      let joined :=
        if !literal && lead = ['\n'] && !indented && !blank then
          if trail.isEmpty then [' '] else trail
        else lead ++ trail
      let (line, c) := c.takeWhile fun d => !isBreak d
      let lead := c.lineBreak
      let c := if c.holds isBreak then c.advance else c
      let (trail, _, c) ← blockGap (some indent) (c.rest.length + 1) [] 0 c
      blockBody literal indent fuel (line.reverse ++ (joined.reverse ++ acc)) lead trail blank c

def blockScalar (outer? : Option Nat) (c : Cursor) : Option (Written × String × Cursor) := do
  let literal := c.isAt '|'
  let (h, c) ← blockHeader 2 none none c.advance
  let c ← finishLine c
  let said? := h.increment?.map fun n => outer?.getD 0 + n
  let (trail, deepest, c) ← blockGap said? (c.rest.length + 1) [] 0 c
  let least := match outer? with
    | some n => n + 1
    | none => 1
  let indent := said?.getD (max deepest least)
  let (acc, lead, trail, c) ← blockBody literal indent (c.rest.length + 1) [] [] trail false c
  let ending := match h.chomp with
    | .strip => []
    | .clip => lead
    | .keep => lead ++ trail
  pure (if literal then .literal else .folded, String.ofList (acc.reverse ++ ending), c)

end GraphRules.Yaml
