import GraphRules.Check.Definitions
import GraphRules.Script.Alternatives

/-! Which variables are bound where. Alternatives are read from left to right; calls bind their
variables. A variable must be bound before it is compared, and before it is negated if it also
occurs outside the negation. -/
namespace GraphRules.Check

def boundBy (alternative : List Literal) : List String :=
  alternative.flatMap fun
    | .call c => c.vars
    | _ => []

/-- What is wrong with a literal that stands between two parts of an alternative. Variables in
`outside` occur in the consequence. -/
def hazardsOf (outside : List String) (before : List Literal) (l : Literal) (after : List Literal) :
    List Found :=
  let bound := boundBy before
  match l with
  | .compare c =>
    (c.vars.filter fun v => v ∉ bound).map fun v => (.comparedUnbound v, c.span)
  | .negated f span =>
    let elsewhere := outside ++ Literal.varsAll before ++ Literal.varsAll after
    (f.vars.filter fun v => v ∈ elsewhere && v ∉ bound).map fun v => (.negatedUnbound v, span)
  | _ => []

def hazardsFrom (outside : List String) : List Literal → List Literal → List Found
  | _, [] => []
  | before, l :: after =>
    hazardsOf outside before l after ++ hazardsFrom outside (before ++ [l]) after

def hazards (outside : List String) (alternative : List Literal) : List Found :=
  hazardsFrom outside [] alternative

def unboundFindings (consequence : List Call) (alternative : List Literal) : List Found :=
  let bound := boundBy alternative
  consequence.flatMap fun c => c.args.filterMap fun a =>
    match a.varName? with
    | some v => if v ∈ bound then none else some (.unboundInConsequence v c, a.span)
    | none => none

def partlyUnboundFindings (q : Query) (alternative : List Literal) : List Found :=
  let bound := boundBy alternative
  (q.headVariables.filter fun v => v ∉ bound).map fun v => (.partlyUnbound v q.name, q.nameSpan)

/-- Findings of one key are told once: a variable compared or negated at one place, or not bound at
all. -/
def key : Found → Finding × Nat
  | (.comparedUnbound v, s) => (.comparedUnbound v, s.start)
  | (.negatedUnbound v, s) => (.comparedUnbound v, s.start)
  | (.unboundInConsequence v _, _) => (.unboundInFact v, 0)
  | (.unboundInFact v, _) => (.unboundInFact v, 0)
  | (f, s) => (f, s.start)

def onceEach : List (Finding × Nat) → List Found → List Found
  | _, [] => []
  | seen, f :: fs => if key f ∈ seen then onceEach seen fs else f :: onceEach (key f :: seen) fs

/-- Named variables that occur once. A leading underscore says that this is meant. -/
def singletonFindings (occurrences : List String) (span : Span) : List Found :=
  (occurrences.eraseDups.filter fun v =>
    occurrences.count v = 1 && !(v.toList.head? = some '_')).map fun v => (.singleton v, span)

end GraphRules.Check
