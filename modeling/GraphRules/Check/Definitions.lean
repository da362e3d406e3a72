import GraphRules.Check.Finding
import GraphRules.Library.Vocabulary

/-! The predicates a script defines: by labels, rules and queries. Labels and queries define a name
once and for themselves; rules may share one with labels and with other rules. -/
namespace GraphRules.Check

abbrev Found := Finding × Span

inductive Origin where
  | label | rule | query
  deriving DecidableEq, Inhabited

def Origin.isTopLevel (o : Origin) : Bool := o ≠ .rule

structure Definition where
  name : String
  arity : Nat
  origin : Origin
  span : Span
  deriving DecidableEq, Inhabited

inductive Entry where
  | definition (d : Definition)
  | badLabel (value : String) (span : Span)

def labelEntry (l : Label) : Entry :=
  if l.alias?.isNone && !isPlainName l.value then .badLabel l.value l.span
  else .definition ⟨l.predicate, 1, .label, l.span⟩

def entries : Item → List Entry
  | .labels d => d.labels.map labelEntry
  | .rule r => r.consequence.map fun c => .definition ⟨c.name, c.arity, .rule, c.span⟩
  | .query q => [.definition ⟨q.name, q.headVariables.length, .query, q.nameSpan⟩]

def clash? (previous d : Definition) : Option Finding :=
  if d.origin.isTopLevel && previous.origin.isTopLevel then
    some (.alreadyDeclared d.name previous.span)
  else if previous.arity ≠ d.arity then
    some (.redefinedArity d.name d.arity previous.arity previous.span)
  else if d.origin = .query || previous.origin = .query then
    some (.alreadyDeclared d.name previous.span)
  else none

def findDefinition? (ds : List Definition) (name : String) : Option Definition :=
  ds.find? fun d => d.name = name

/-- Adds an entry to the definitions. The first definition of a name counts; known predicates are
not defined. -/
def define (v : Vocabulary) (ds : List Definition) : Entry → List Definition × List Found
  | .badLabel value span => (ds, [(.noPredicateName value, span)])
  | .definition d =>
    if v.containsName d.name then
      (ds, [(.knownPredicate d.name (v.role? ⟨d.name, d.arity⟩ = some .reserved), d.span)])
    else
      match findDefinition? ds d.name with
      | none => (ds ++ [d], [])
      | some previous => (ds, (clash? previous d).toList.map fun f => (f, d.span))

def defineAll (v : Vocabulary) : List Definition → List Entry → List Definition × List Found
  | ds, [] => (ds, [])
  | ds, e :: es =>
    let (ds, found) := define v ds e
    let (ds, rest) := defineAll v ds es
    (ds, found ++ rest)

end GraphRules.Check
