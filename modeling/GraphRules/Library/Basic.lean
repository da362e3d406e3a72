import GraphRules.Library.Predicate
import GraphRules.Library.Vocabulary
import GraphRules.Term.Theory

/-! Libraries: foreign predicates and facts derived from the graph that the library is bound to. -/
namespace GraphRules

structure Derivation where
  signatures : List Signature
  clauses : Graph → List Clause

structure Declarations where
  predicates : List Predicate := []
  derivations : List Derivation := []
  deriving Inhabited

namespace Declarations

def append (a b : Declarations) : Declarations :=
  ⟨a.predicates ++ b.predicates, a.derivations ++ b.derivations⟩

def roleOf : PredicateKind → Role
  | .attribute => .attribute
  | .numeric => .numeric
  | .boolean => .boolean

def vocabulary (d : Declarations) : Vocabulary :=
  let facts := d.derivations.flatMap fun t => t.signatures.map fun s => (s, Role.structural)
  let foreign := d.predicates.map fun p => (p.signature, roleOf p.kind)
  (facts ++ foreign).foldl (fun v e => v.insert e.1 e.2) {}

def facts (d : Declarations) (g : Graph) : List Clause := d.derivations.flatMap fun t => t.clauses g

end Declarations

structure Library where
  graph : Graph
  declarations : Declarations
  theory : Theory
  deriving Inhabited

namespace Library

/-- Derives the facts about the graph anew; those that were there are forgotten. -/
def rebuild (l : Library) : Library :=
  { l with theory := Theory.empty.insertAll (l.declarations.facts l.graph) }

def ofGraph (d : Declarations) (g : Graph) : Library := rebuild ⟨g, d, .empty⟩

def rebind (l : Library) (g : Graph) : Graph × Library := (l.graph, rebuild { l with graph := g })

def setGraph (l : Library) (g : Graph) : Library := (l.rebind g).2

/-- The foreign predicate with a signature; the last one declared counts. -/
def predicate? (l : Library) (s : Signature) : Option Predicate :=
  l.declarations.predicates.reverse.find? fun p => p.signature = s

def isForeign (l : Library) (s : Signature) : Bool := (l.predicate? s).isSome

def call (l : Library) (s : Signature) (args : List Term) : Option (List (Term × Term)) :=
  match l.predicate? s with
  | none => none
  | some p =>
    match p.answer l.graph args with
    | .succeed equations => some equations
    | .fail => none
    | .fault _ => none

def predicates (l : Library) : List Predicate :=
  let signatures := (l.declarations.predicates.map Predicate.signature).eraseDups
  (signatures.mergeSort fun a b => !Vocabulary.before b a).filterMap l.predicate?

end Library

end GraphRules
