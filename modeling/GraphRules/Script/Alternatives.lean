import GraphRules.Script.Tree

/-! The disjunctive normal form of a formula. Groups are multiplied out from left to right,
negations are left as they stand, and the number of alternatives is counted without forming them. -/
namespace GraphRules

mutual

def Literal.alternatives : Literal → List (List Literal)
  | .group f => f.alternatives
  | .call c => [[.call c]]
  | .negated f s => [[.negated f s]]
  | .compare c => [[.compare c]]

def Formula.alternatives : Formula → List (List Literal)
  | .mk ds _ => Formula.alternativesAny ds

def Formula.alternativesAny : List (List Literal) → List (List Literal)
  | [] => []
  | c :: cs => Literal.alternativesAll c ++ Formula.alternativesAny cs

/-- Every choice of one alternative for each literal, the first literal's choice being the slowest
to change. -/
def Literal.alternativesAll : List Literal → List (List Literal)
  | [] => [[]]
  | l :: ls =>
    let rest := Literal.alternativesAll ls
    l.alternatives.flatMap fun a => rest.map fun b => a ++ b

end

def countLimit : Nat := 1 <<< 64 - 1

mutual

def Literal.count : Literal → Nat
  | .group f => f.count
  | _ => 1

def Formula.count : Formula → Nat
  | .mk ds _ => Formula.countAny 0 ds

def Formula.countAny : Nat → List (List Literal) → Nat
  | n, [] => n
  | n, c :: cs => Formula.countAny (min countLimit (n + Literal.countAll 1 c)) cs

def Literal.countAll : Nat → List Literal → Nat
  | n, [] => n
  | n, l :: ls => Literal.countAll (min countLimit (n * l.count)) ls

end

end GraphRules
