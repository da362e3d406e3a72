import GraphRules.Graph.Measure
import GraphRules.Term.Text

/-! Foreign predicates: goals answered from the graph itself. The first argument names the element
asked about. An argument of the wrong form is a fault, which is told apart from a goal that merely
fails. -/
namespace GraphRules

inductive Fault where
  | unbound (predicate : Signature) (position : Nat)
  | shape (predicate : Signature) (position : Nat) (expected : String) (found : Term)
  | notNumeric (predicate : Signature) (element attributeName : String)
  | undefinedFor (predicate : Signature) (kind : ElementKind) (element : String)
  | arity (predicate : Signature) (found : Nat)
  deriving DecidableEq

def Fault.message : Fault → String
  | .unbound p i => p.text ++ ": argument " ++ toString i ++ " is unbound"
  | .shape p i expected found =>
    p.text ++ ": argument " ++ toString i ++ " must be " ++ expected ++ ", found " ++ found.text
  | .notNumeric p element name =>
    p.text ++ ": attribute " ++ name ++ " of " ++ element ++ " is not numeric"
  | .undefinedFor p kind element =>
    p.text ++ ": metric undefined for " ++ kind.name ++ " " ++ element
  | .arity p found => p.text ++ ": called with " ++ toString found ++ " arguments"

inductive Outcome where
  /-- The goal holds if these pairs of terms can be made equal. -/
  | succeed (equations : List (Term × Term))
  | fail
  | fault (f : Fault)
  deriving DecidableEq

inductive PredicateKind where
  | attribute | numeric | boolean
  deriving DecidableEq, Inhabited

def PredicateKind.name : PredicateKind → String
  | .attribute => "attribute"
  | .numeric => "numeric"
  | .boolean => "boolean"

structure Scope where
  nodes : Bool := false
  edges : Bool := false
  graph : Bool := false
  deriving DecidableEq, Inhabited

namespace Scope

def ofNodes : Scope := { nodes := true }

def ofEdges : Scope := { edges := true }

def ofGraph : Scope := { graph := true }

def everywhere : Scope := ⟨true, true, true⟩

def union (a b : Scope) : Scope := ⟨a.nodes || b.nodes, a.edges || b.edges, a.graph || b.graph⟩

def contains (s : Scope) : ElementKind → Bool
  | .node => s.nodes
  | .edge => s.edges
  | .graph => s.graph

def text (s : Scope) : String :=
  let parts := [(s.nodes, "nodes"), (s.edges, "edges"), (s.graph, "graph")]
  ",".intercalate ((parts.filter Prod.fst).map Prod.snd)

end Scope

structure Predicate where
  signature : Signature
  kind : PredicateKind
  scope : Scope
  /-- The answer to a call on a graph. -/
  answer : Graph → List Term → Outcome

namespace Predicate

abbrev Answering := Except Fault

def ofAnswering : Answering Outcome → Outcome
  | .ok o => o
  | .error f => .fault f

/-- The element that the first argument names. There may be none of that name, which is no fault. -/
def subject (g : Graph) (p : Signature) : Term → Answering (Option Element)
  | .atom id => .ok (g.find? id)
  | .var _ => .error (.unbound p 1)
  | t => .error (.shape p 1 "an element id" t)

def attributeName (p : Signature) : Term → Answering String
  | .atom name => .ok name
  | .var _ => .error (.unbound p 2)
  | t => .error (.shape p 2 "an attribute name" t)

def holdsIf (b : Bool) : Outcome := if b then .succeed [] else .fail

/-- Compares a stored value with the one asked for: text with atoms, numbers by value. A variable
takes the value as text. -/
def matchAttribute (p : Signature) (e : Element) (name : String) (stored : Attribute) :
    Term → Answering Outcome
  | .atom value => .ok (holdsIf (stored.text? = some value))
  | .number value =>
    match stored.number? with
    | some actual => .ok (holdsIf (actual.sameValue value))
    | none => .error (.notNumeric p e.id name)
  | .var v => .ok (.succeed [(.var v, .atom stored.render)])
  | .compound _ _ => .ok .fail

def attributeAnswer (p : Signature) (g : Graph) : List Term → Answering Outcome
  | [id, name, value] => do
    match ← subject g p id with
    | none => pure .fail
    | some e =>
      let name ← attributeName p name
      match e.attribute? name with
      | none => pure .fail
      | some stored => matchAttribute p e name stored value
  | args => .error (.arity p args.length)

def numericAnswer (p : Signature) (scope : Scope) (m : NumericMeasure) (g : Graph) :
    List Term → Answering Outcome
  | [id, value] => do
    match ← subject g p id with
    | none => pure .fail
    | some e =>
      if !scope.contains e.kind then pure .fail
      else
        match m.value? g e with
        | none => throw (.undefinedFor p e.kind e.id)
        | some n =>
          match value with
          | .number expected => pure (holdsIf (Number.sameValue (.int n) expected))
          | .var v => pure (.succeed [(.var v, .int n)])
          | _ => pure .fail
  | args => .error (.arity p args.length)

def booleanAnswer (p : Signature) (scope : Scope) (m : BooleanMeasure) (g : Graph) :
    List Term → Answering Outcome
  | [id] => do
    match ← subject g p id with
    | none => pure .fail
    | some e =>
      if !scope.contains e.kind then pure .fail
      else
        match m.value? g e with
        | none => throw (.undefinedFor p e.kind e.id)
        | some b => pure (holdsIf b)
  | args => .error (.arity p args.length)

def ofAttributes : Predicate :=
  let p : Signature := ⟨"attribute", 3⟩
  ⟨p, .attribute, .everywhere, fun g args => ofAnswering (attributeAnswer p g args)⟩

def ofNumeric (name : String) (scope : Scope) (m : NumericMeasure) : Predicate :=
  let p : Signature := ⟨name, 2⟩
  ⟨p, .numeric, scope, fun g args => ofAnswering (numericAnswer p scope m g args)⟩

def ofBoolean (name : String) (scope : Scope) (m : BooleanMeasure) : Predicate :=
  let p : Signature := ⟨name, 1⟩
  ⟨p, .boolean, scope, fun g args => ofAnswering (booleanAnswer p scope m g args)⟩

end Predicate

end GraphRules
