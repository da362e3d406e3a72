import GraphRules.Script.Parse
import Mathlib.Data.List.Basic

/-! Readers as scans. A word, a mark, a name, a string, an argument or a run of blanks is found by
looking at the text alone; a reader of one of them moves over the characters that its scan has
found. -/
namespace GraphRules.Script

variable {α β : Type}

theorem bind_run (p : Reader α) (f : α → Reader β) (c : Cursor) :
    (p >>= f) c = (p c).bind fun x => f x.1 x.2 := rfl

theorem pure_run (a : α) (c : Cursor) : (pure a : Reader α) c = some (a, c) := rfl

theorem map_run (f : α → β) (p : Reader α) (c : Cursor) :
    (f <$> p) c = (p c).map fun x => (f x.1, x.2) := by
  cases h : p c with
  | none => simp [Functor.map, StateT.map, h]
  | some x => simp [Functor.map, StateT.map, h]

theorem orElse_run (p q : Reader α) (c : Cursor) : (p <|> q) c = (p c).or (q c) := by
  change (p c <|> q c) = _
  cases p c <;> rfl

/-- What a text starts with: a value, and the number of characters that it takes. -/
abbrev Scan (α : Type) := List Char → Option (α × Nat)

def scanned (m : Scan α) : Reader α := fun c => (m c.rest).map fun x => (x.1, c.advance x.2)

def blankScan : Scan Unit := fun cs => some ((), blankLength cs)

def markScan (s : String) : Scan Unit :=
  fun cs => if s.toList.isPrefixOf cs then some ((), s.length) else none

def Closed (cs : List Char) : Prop := ∀ x ∈ cs.head?, isNameChar x = false

instance (cs : List Char) : Decidable (Closed cs) :=
  decidable_of_iff (cs.head?.all fun x => !isNameChar x) (by simp [Closed, Option.all_eq_true])

def wordScan (s : String) : Scan Unit := fun cs =>
  if s.toList.isPrefixOf cs ∧ Closed (cs.drop s.length) then some ((), s.length) else none

def textScan (measure : List Char → Option Nat) : Scan String := fun cs =>
  (measure cs).map fun n => (String.ofList (cs.take n), n)

def nameScan : Scan String := textScan (nameLength? Char.isLower)

def quotedScan : Scan String := fun cs => (textScan stringLength? cs).map fun x =>
  (stringValue x.1, x.2)

def symbolScan (k : Comparator) : Scan Comparator := fun cs =>
  if k.symbol.toList.isPrefixOf cs then some (k, k.symbol.length) else none

def comparatorScan : Scan Comparator := fun cs =>
  (symbolScan .eq cs).or <| (symbolScan .ne cs).or <| (symbolScan .le cs).or <|
    (symbolScan .ge cs).or <|
    (symbolScan .lt cs).or <| symbolScan .gt cs

def kindScan (measure : List Char → Option Nat) (kind : String → ArgKind) :
    Scan (ArgKind × String) := fun cs =>
  (textScan measure cs).map fun x => ((kind x.1, x.1), x.2)

def argScan : Scan (ArgKind × String) := fun cs =>
  (kindScan floatLength? (fun s => .float (floatValue s)) cs).or <|
    (kindScan integerLength? (fun s => .int (intValue s)) cs).or <|
    (kindScan stringLength? (fun s => .quoted (stringValue s)) cs).or <|
    (kindScan wildcardLength? (fun _ => .wildcard) cs).or <|
    (kindScan (nameLength? isUpperStart) .var cs).or <|
    kindScan (nameLength? Char.isLower) .symbol cs

theorem blanks_eq : blanks = scanned blankScan := rfl

theorem exactly_eq (s : String) : exactly s = scanned (markScan s) := by
  funext c
  by_cases h : s.toList.isPrefixOf c.rest <;> simp [exactly, scanned, markScan, h]

theorem keyword_eq (s : String) : keyword s = scanned (wordScan s) := by
  funext c
  have hrest : (c.advance s.length).rest = c.rest.drop s.length := rfl
  by_cases h : s.toList.isPrefixOf c.rest
  · cases hd : c.rest.drop s.length with
    | nil => simp [keyword, exactly, scanned, wordScan, Closed, h, hrest, hd]
    | cons x xs =>
      by_cases hx : isNameChar x <;> simp [keyword, exactly, scanned, wordScan,
        Closed, h, hrest, hd, hx]
  · simp [keyword, exactly, scanned, wordScan, h]

theorem taken_eq (measure : List Char → Option Nat) :
    taken measure = scanned (textScan measure) := by
  funext c
  cases h : measure c.rest <;> simp [taken, scanned, textScan, h]

theorem name_eq : name = scanned nameScan := taken_eq _

theorem string_eq : string = scanned quotedScan := by
  funext c
  cases h : stringLength? c.rest <;> simp [string, taken_eq, bind_run, scanned,
    quotedScan, textScan, h, pure_run]

theorem scanned_orElse (m m' : Scan α) :
    (scanned m <|> scanned m') = scanned fun cs => (m cs).or (m' cs) := by
  funext c
  rw [orElse_run]
  cases h : m c.rest <;> simp [scanned, h]

theorem comparator_eq : comparator = scanned comparatorScan := by
  have hone : ∀ k : Comparator, (exactly k.symbol *> pure k : Reader Comparator) =
      scanned (symbolScan k) := by
    intro k
    funext c
    change (exactly k.symbol >>= fun _ => pure k) c = _
    by_cases h : k.symbol.toList.isPrefixOf c.rest <;>
      simp [bind_run, exactly, scanned, symbolScan, h, pure_run]
  change (exactly Comparator.eq.symbol *> pure Comparator.eq <|>
    exactly Comparator.ne.symbol *> pure Comparator.ne <|>
    exactly Comparator.le.symbol *> pure Comparator.le <|>
    exactly Comparator.ge.symbol *> pure Comparator.ge <|>
    exactly Comparator.lt.symbol *> pure Comparator.lt <|>
    exactly Comparator.gt.symbol *> pure Comparator.gt) = _
  simp only [hone, scanned_orElse]
  rfl

/-- The cursor after an argument: a whole number that is too large is kept in mind, unless there was
one before. -/
def Cursor.noted (c : Cursor) (k : ArgKind) (text : String) (span : Span) : Cursor :=
  match k with
  | .int n => if fitsWord n || c.oversized?.isSome then c
  else { c with oversized? := some (text, span) }
  | _ => c

def argBy (m : Scan (ArgKind × String)) : Reader Arg := fun c =>
  (m c.rest).map fun x =>
    let span := Span.between c.place (c.advance x.2).place
    (⟨x.1.1, span⟩, (c.advance x.2).noted x.1.1 x.1.2 span)

theorem argBy_orElse (m m' : Scan (ArgKind × String)) :
    (argBy m <|> argBy m') = argBy fun cs => (m cs).or (m' cs) := by
  funext c
  rw [orElse_run]
  cases h : m c.rest <;> simp [argBy, h]

theorem argOf_eq (measure : List Char → Option Nat) (kind : String → ArgKind)
    (hkind : ∀ s n, kind s ≠ .int n) : argOf measure kind = argBy (kindScan measure kind) := by
  funext c
  have hnoted : ∀ (c : Cursor) s text span, c.noted (kind s) text span = c := by
    intro c s text span
    unfold Cursor.noted
    split
    · exact (hkind s _ ‹_›).elim
    · rfl
  cases h : measure c.rest <;>
    simp [argOf, bind_run, spanned, taken_eq, scanned, argBy, kindScan,
      textScan, h, hnoted, pure_run]

theorem integer_eq : integer = argBy (kindScan integerLength? fun s => .int (intValue s)) := by
  funext c
  cases h : integerLength? c.rest <;>
    simp [integer, noteOversized, Cursor.noted, bind_run, spanned, taken_eq, scanned, argBy,
      kindScan, textScan, h, map_run, modify, modifyGet, MonadStateOf.modifyGet, StateT.modifyGet]

theorem arg_eq : arg = argBy argScan := by
  unfold arg
  rw [integer_eq, argOf_eq _ _ (by simp), argOf_eq _ _ (by simp), argOf_eq _ _ (by simp),
    argOf_eq _ _ (by simp), argOf_eq _ _ (by simp)]
  simp only [argBy_orElse]
  rfl

end GraphRules.Script
