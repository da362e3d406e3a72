import GraphRules.Script.Reader

/-! What was expected where a goal stops to make sense. The grammar of goals is tried once more, and
every named part that fails is noted with the place where it was tried. Only the furthest place
counts. A part whose own attempt left exactly one name there keeps that name; otherwise its name
takes the place of those noted during the attempt. -/
namespace GraphRules.Script

inductive Part where
  | ending | goal | notWord | formula | conjunction | negation | group | comparison | comparator
  | predicate | float | integer | string | wildcard | variable | name
  deriving DecidableEq, Inhabited

namespace Part

def all : List Part :=
  [.ending, .goal, .notWord, .formula, .conjunction, .negation, .group, .comparison, .comparator,
    .predicate, .float, .integer, .string, .wildcard, .variable, .name]

def text : Part → String
  | .ending => "EOI"
  | .goal => "goal"
  | .notWord => "kw_not"
  | .formula => "formula"
  | .conjunction => "conjunction"
  | .negation => "negation"
  | .group => "group"
  | .comparison => "comparison"
  | .comparator => "compare_op"
  | .predicate => "predicate"
  | .float => "float"
  | .integer => "integer"
  | .string => "string"
  | .wildcard => "wildcard"
  | .variable => "variable"
  | .name => "ident"

end Part

structure Trial where
  cursor : Cursor
  furthest : Place := {}
  failed : List Part := []

def Trial.failuresAt (t : Trial) (p : Place) : Nat :=
  if p.offset = t.furthest.offset then t.failed.length else 0

abbrev Probe := Trial → Bool × Trial

/-- Notes that a part failed at a place where `before` parts had failed when it was tried. -/
def Trial.note (t : Trial) (part : Part) (p : Place) (before : Nat) : Trial :=
  if t.failuresAt p = before + 1 then t
  else if p.offset = t.furthest.offset then { t with failed := t.failed.take before ++ [part] }
  else if t.furthest.offset < p.offset then { t with furthest := p, failed := [part] }
  else t

namespace Probe

def named (part : Part) (p : Probe) : Probe := fun t =>
  let start := t.cursor
  let before := t.failuresAt start.place
  match p t with
  | (true, t') => (true, t')
  | (false, t') => (false, { t'.note part start.place before with cursor := start })

def measured (measure : List Char → Option Nat) : Probe := fun t =>
  match measure t.cursor.rest with
  | some n => (true, { t with cursor := t.cursor.advance n })
  | none => (false, t)

def exactly (s : String) : Probe :=
  measured fun cs => if s.toList.isPrefixOf cs then some s.length else none

def blanks : Probe := measured fun cs => some (blankLength cs)

def sequence : List Probe → Probe
  | [] => fun t => (true, t)
  | p :: ps => fun t =>
    match p t with
    | (true, t') =>
      match sequence ps t' with
      | (true, t'') => (true, t'')
      | (false, t'') => (false, { t'' with cursor := t.cursor })
    | (false, t') => (false, { t' with cursor := t.cursor })

def choice : List Probe → Probe
  | [] => fun t => (false, t)
  | p :: ps => fun t =>
    match p t with
    | (true, t') => (true, t')
    | (false, t') => choice ps { t' with cursor := t.cursor }

def optionally (p : Probe) : Probe := choice [p, fun t => (true, t)]

def several (p : Probe) : Nat → Probe
  | 0 => fun t => (true, t)
  | n + 1 => fun t =>
    match p t with
    | (true, t') => several p n t'
    | (false, t') => (true, { t' with cursor := t.cursor })

def many (p : Probe) : Probe := fun t => several p t.cursor.rest.length t

def separated (separator : String) (p : Probe) : Probe :=
  let following := sequence [exactly separator, blanks, p]
  sequence [p, blanks, optionally (sequence [following, many (sequence [blanks, following])])]

def name : Probe := named .name (measured (nameLength? Char.isLower))

def term : Probe :=
  choice
    [named .float (measured floatLength?), named .integer (measured integerLength?),
      named .string (measured stringLength?), named .wildcard (measured wildcardLength?),
      named .variable (measured (nameLength? isUpperStart)), name]

def predicate : Probe :=
  named .predicate
    (sequence
      [name, blanks,
        optionally
          (sequence [exactly "(", blanks, optionally (separated "," term), blanks, exactly ")"])])

def comparator : Probe :=
  named .comparator
    (choice [exactly "==", exactly "!=", exactly "<=", exactly ">=", exactly "<", exactly ">"])

def comparison : Probe := named .comparison (sequence [term, blanks, comparator, blanks, term])

def group (formula : Probe) : Probe :=
  named .group (sequence [exactly "(", blanks, formula, blanks, exactly ")"])

def notWord : Probe :=
  named .notWord
    (measured fun cs =>
      (keyword "not" { rest := cs }).map fun _ => 3)

def negation (formula : Probe) : Probe :=
  named .negation (sequence [notWord, blanks, choice [group formula, predicate]])

def literal (formula : Probe) : Probe :=
  choice [negation formula, comparison, group formula, predicate]

def formulaDepth : Nat → Probe
  | 0 => fun t => (false, t)
  | n + 1 =>
    named .formula
      (separated ";" (named .conjunction (separated "," (literal (formulaDepth n)))))

def formula : Probe := fun t => formulaDepth (t.cursor.rest.length + 1) t

def ending : Probe := named .ending (measured fun cs => if cs.isEmpty then some 0 else none)

def goal : Probe :=
  named .goal (sequence [blanks, formula, blanks, optionally (exactly "."), blanks, ending])

end Probe

def orList : List String → String
  | [] => ""
  | [a] => a
  | [a, b] => a ++ " or " ++ b
  | as => ", ".intercalate as.dropLast ++ ", or " ++ as.getLastD ""

def expectedIn (text : String) : Place × List Part :=
  let (_, t) := Probe.goal { cursor := { rest := text.toList } }
  (t.furthest, Part.all.filter (· ∈ t.failed))

end GraphRules.Script
