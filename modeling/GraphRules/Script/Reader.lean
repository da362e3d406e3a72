import GraphRules.Script.Tree
import GraphRules.Text.Blank
import GraphRules.Text.Quoted

/-! Reading scripts and goals. The grammar makes ordered choices: the first alternative that matches
is taken. Blanks and comments may stand between the parts of a construct, and a construct whose last
part is optional reaches over the blanks before that part even when the part is missing. -/
namespace GraphRules.Script

structure Cursor where
  rest : List Char
  place : Place := {}
  /-- The first whole number passed that does not fit a signed word, as written. -/
  oversized? : Option (String × Span) := none
  deriving Inhabited

def Cursor.advance (c : Cursor) (n : Nat) : Cursor :=
  { c with rest := c.rest.drop n, place := (c.rest.take n).foldl Place.next c.place }

abbrev Reader := StateT Cursor Option

mutual

def blankLength : List Char → Nat
  | [] => 0
  | '%' :: cs => lineLength cs + 1
  | '/' :: '/' :: cs => lineLength cs + 2
  | '/' :: '*' :: cs =>
    match blockLength? cs with
    | some n => n + 2
    | none => 0
  | c :: cs =>
    if c = ' ' ∨ c = '\t' ∨ c = '\r' ∨ c = '\n' then blankLength cs + 1 else 0

def lineLength : List Char → Nat
  | [] => 0
  | c :: cs => if c = '\n' ∨ c = '\r' then blankLength cs + 1 else lineLength cs + 1

def blockLength? : List Char → Option Nat
  | [] => none
  | '*' :: '/' :: cs => some (blankLength cs + 2)
  | _ :: cs => (blockLength? cs).map (· + 1)

end

def blanks : Reader Unit := modify fun c => c.advance (blankLength c.rest)

def exactly (s : String) : Reader Unit := fun c =>
  if s.toList.isPrefixOf c.rest then some ((), c.advance s.length) else none

def isNameChar (c : Char) : Bool := c.isAlphanum || c = '_'

def taken (measure : List Char → Option Nat) : Reader String := fun c =>
  (measure c.rest).map fun n => (String.ofList (c.rest.take n), c.advance n)

def nameLength? (first : Char → Bool) : List Char → Option Nat
  | [] => none
  | c :: cs => if first c then some ((cs.takeWhile isNameChar).length + 1) else none

def keyword (s : String) : Reader Unit := fun c =>
  match exactly s c with
  | some (_, c') =>
    match c'.rest with
    | x :: _ => if isNameChar x then none else some ((), c')
    | [] => some ((), c')
  | none => none

def name : Reader String := taken (nameLength? Char.isLower)

def integerLength? (cs : List Char) : Option Nat :=
  let (sign, ds) := match cs with
    | '-' :: ds => (1, ds)
    | ds => (0, ds)
  let n := (ds.takeWhile Char.isDigit).length
  if n = 0 then none else some (sign + n)

def floatLength? (cs : List Char) : Option Nat :=
  match integerLength? cs with
  | none => none
  | some n =>
    match cs.drop n with
    | '.' :: ds =>
      let k := (ds.takeWhile Char.isDigit).length
      if k = 0 then none else some (n + 1 + k)
    | _ => none

/-- The length of the text before the closing quote. A backslash takes the next character with it.
-/
def innerLength? : List Char → Option Nat
  | [] => none
  | '"' :: _ => some 0
  | '\\' :: [] => none
  | '\\' :: _ :: cs => (innerLength? cs).map (· + 2)
  | _ :: cs => (innerLength? cs).map (· + 1)

def stringLength? : List Char → Option Nat
  | '"' :: cs => (innerLength? cs).map (· + 2)
  | _ => none

def stringValue (s : String) : String :=
  String.ofList (Text.decode (s.toList.drop 1).dropLast)

def string : Reader String := do
  let s ← taken stringLength?
  pure (stringValue s)

def wildcardLength? : List Char → Option Nat
  | '_' :: cs =>
    match cs with
    | c :: _ => if isNameChar c then none else some 1
    | [] => some 1
  | _ => none

def floatValue (s : String) : Binary64 := (Binary64.read? s.toList).getD default

def intValue (s : String) : Int :=
  let (negative, ds) := splitSign s.toList
  signed negative (digitsValue ds)

def spanned (p : Reader α) : Reader (α × Span) := fun c =>
  match p c with
  | some (a, c') => some ((a, Span.between c.place c'.place), c')
  | none => none

def noteOversized (text : String) (n : Int) (span : Span) : Reader Unit := modify fun c =>
  if fitsWord n || c.oversized?.isSome then c else { c with oversized? := some (text, span) }

def integer : Reader Arg := do
  let (s, span) ← spanned (taken integerLength?)
  noteOversized s (intValue s) span
  pure ⟨.int (intValue s), span⟩

def argOf (measure : List Char → Option Nat) (kind : String → ArgKind) : Reader Arg := do
  let (s, span) ← spanned (taken measure)
  pure ⟨kind s, span⟩

def isUpperStart (c : Char) : Bool := c.isUpper || c = '_'

def arg : Reader Arg :=
  argOf floatLength? (fun s => .float (floatValue s))
    <|> integer
    <|> argOf stringLength? (fun s => .quoted (stringValue s))
    <|> argOf wildcardLength? (fun _ => .wildcard)
    <|> argOf (nameLength? isUpperStart) .var
    <|> argOf (nameLength? Char.isLower) .symbol

def several (p : Reader α) : Nat → Reader (List α)
  | 0 => pure []
  | n + 1 => fun c =>
    match p c with
    | none => some ([], c)
    | some (a, c') =>
      match several p n c' with
      | none => none
      | some (as, c'') => some (a :: as, c'')

def many (p : Reader α) : Reader (List α) := fun c => several p c.rest.length c

def following (separator : String) (p : Reader α) : Reader α := do
  exactly separator
  blanks
  p

/-- One or more parts with a separator between them. Blanks after the first part belong to the list,
blanks after a later one do not. -/
def separated (separator : String) (p : Reader α) : Reader (List α) := do
  let first ← p
  blanks
  let second? ← optional (following separator p)
  match second? with
  | none => pure [first]
  | some second =>
    let others ← many (do blanks; following separator p)
    pure (first :: second :: others)

def arguments : Reader (List Arg) := do
  exactly "("
  blanks
  let args? ← optional (separated "," arg)
  blanks
  exactly ")"
  pure (args?.getD [])

def call : Reader Call := do
  let ((name, args?), span) ← spanned do
    let name ← name
    blanks
    let args? ← optional arguments
    pure (name, args?)
  pure ⟨name, args?.getD [], span⟩

def comparator : Reader Comparator :=
  (exactly "==" *> pure .eq) <|> (exactly "!=" *> pure .ne) <|> (exactly "<=" *> pure .le)
    <|> (exactly ">=" *> pure .ge) <|> (exactly "<" *> pure .lt) <|> (exactly ">" *> pure .gt)

def comparison : Reader Comparison := do
  let ((left, op, right), span) ← spanned do
    let left ← arg
    blanks
    let op ← comparator
    blanks
    let right ← arg
    pure (left, op, right)
  pure ⟨op, left, right, span⟩

def group (formula : Reader Formula) : Reader Formula := do
  exactly "("
  blanks
  let f ← formula
  blanks
  exactly ")"
  pure f

/-- What a negation denies: a group, or a single predicate as a formula of its own. -/
def denied (formula : Reader Formula) : Reader Formula :=
  group formula <|> do
    let c ← call
    pure (.mk [[.call c]] c.span)

def negation (formula : Reader Formula) : Reader Literal := do
  let (f, span) ← spanned do
    keyword "not"
    blanks
    denied formula
  pure (.negated f span)

def literal (formula : Reader Formula) : Reader Literal :=
  negation formula
    <|> (.compare <$> comparison)
    <|> (.group <$> group formula)
    <|> (.call <$> call)

def formulaOf (formula : Reader Formula) : Reader Formula := do
  let (ds, span) ← spanned (separated ";" (separated "," (literal formula)))
  pure (.mk ds span)

def formulaDepth : Nat → Reader Formula
  | 0 => failure
  | n + 1 => formulaOf (formulaDepth n)

def formula : Reader Formula := fun c => formulaDepth (c.rest.length + 1) c

def labelKind : Reader LabelKind :=
  (keyword "node" *> pure .node) <|> (keyword "edge" *> pure .edge)

def aliasName : Reader String := do
  keyword "as"
  blanks
  name

def label : Reader Label := do
  let ((value, alias?), span) ← spanned do
    let value ← name <|> string
    blanks
    let alias? ← optional aliasName
    pure (value, alias?)
  pure ⟨value, alias?, span⟩

def labelDecl : Reader Item := do
  let ((kind, labels), span) ← spanned do
    let kind ← labelKind
    blanks
    keyword "labels"
    blanks
    exactly ":"
    blanks
    let labels ← separated "," label
    blanks
    exactly "."
    pure (kind, labels)
  pure (.labels ⟨kind, labels, span⟩)

def query : Reader Item := do
  let (((name, nameSpan), body), span) ← spanned do
    keyword "query"
    blanks
    let name ← spanned name
    blanks
    exactly ":"
    blanks
    let body ← formula
    blanks
    exactly "."
    pure (name, body)
  pure (.query ⟨name, nameSpan, body, span⟩)

def antecedent : Reader Formula := do
  let f ← formula
  blanks
  exactly "->"
  pure f

def rule : Reader Item := do
  let ((antecedent?, consequence), span) ← spanned do
    let antecedent? ← optional antecedent
    blanks
    let consequence ← separated "," call
    blanks
    exactly "."
    pure (antecedent?, consequence)
  pure (.rule ⟨antecedent?, consequence, span⟩)

def item : Reader Item := labelDecl <|> query <|> rule

/-- The length of text up to a point that ends a statement. Points in strings and numbers do not. At
most `n` characters, strings and numbers are passed. -/
def malformedLength : Nat → List Char → Nat
  | 0, _ => 0
  | n + 1, cs =>
    match stringLength? cs with
    | some k => k + malformedLength n (cs.drop k)
    | none =>
      match floatLength? cs with
      | some k => k + malformedLength n (cs.drop k)
      | none =>
        match cs with
        | [] => 0
        | '.' :: _ => 1
        | _ :: cs => 1 + malformedLength n cs

/-- A stretch of text that is no item: everything to the end of the statement. -/
def malformed : Reader (String × Span) :=
  spanned (taken fun cs => if cs.isEmpty then none else some (malformedLength cs.length cs))

inductive Statement where
  | item (i : Item)
  /-- A well-formed item with a whole number that does not fit a word. -/
  | oversized (text : String) (span : Span)
  /-- Text that is no item. -/
  | malformed (text : String) (span : Span)
  deriving Inhabited

def statement : Reader Statement := fun c =>
  match item { c with oversized? := none } with
  | some (i, c') =>
    match c'.oversized? with
    | some (text, span) => some (.oversized text span, c')
    | none => some (.item i, c')
  | none =>
    match malformed c with
    | some ((text, span), c') => some (.malformed text span, c')
    | none => none

def statements (text : String) : List Statement :=
  let start : Cursor := { rest := text.toList }
  match (many (blanks *> statement)) start with
  | some (ss, _) => ss
  | none => []

def goal : Reader Formula := fun c =>
  match (do
      blanks; let f ← formula; blanks
      let _ ← optional (exactly "."); blanks
      pure f : Reader Formula) c with
  | some (f, c') => if c'.rest.isEmpty then some (f, c') else none
  | none => none

end GraphRules.Script
