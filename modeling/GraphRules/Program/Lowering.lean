import GraphRules.Diagnostic
import GraphRules.Script.Alternatives
import GraphRules.Term.Basic

/-! Lowering scripts to clauses. Clauses come statement by statement, within a rule consequence by
consequence, and then alternative by alternative; the search tries them in this order. -/
namespace GraphRules.Lowering

def wildcardName (n : Nat) : String := "_G" ++ toString n

/-- The first number from `n` on whose wildcard name is not taken. Of one more names than are taken,
one is free. -/
def nextFree (taken : List String) : Nat → Nat → Nat
  | 0, n => n
  | fuel + 1, n => if wildcardName n ∈ taken then nextFree taken fuel (n + 1) else n

abbrev Fresh := StateM Nat

/-- A variable of its own for a wildcard, with a name that the clause does not use. -/
def wildcard (taken : List String) : Fresh Term := fun n =>
  let k := nextFree taken taken.length (n + 1)
  (.named (wildcardName k), k)

def lowerArg (taken : List String) (a : Arg) : Fresh Term :=
  match a.kind with
  | .var name => pure (.named name)
  | .wildcard => wildcard taken
  | .symbol name => pure (.atom name)
  | .quoted s => pure (.atom s)
  | .int n => pure (.int n)
  | .float x => pure (.number (.float x))

def lowerArgs (taken : List String) : List Arg → Fresh (List Term)
  | [] => pure []
  | a :: as => do
    let t ← lowerArg taken a
    let ts ← lowerArgs taken as
    pure (t :: ts)

def lowerCall (taken : List String) (c : Call) : Fresh Term := do
  let args ← lowerArgs taken c.args
  pure (.apply c.name args)

mutual

def lowerLiteral (taken : List String) : Literal → Fresh Term
  | .call c => lowerCall taken c
  | .negated f _ => do
    let t ← lowerFormula taken f
    pure (.compound "not" [t])
  | .compare c => do
    let l ← lowerArg taken c.left
    let r ← lowerArg taken c.right
    pure (.compound c.op.symbol [l, r])
  | .group f => lowerFormula taken f

def lowerFormula (taken : List String) : Formula → Fresh Term
  | .mk ds _ => do
    let ts ← lowerDisjuncts taken ds
    pure (.disjunction ts)

def lowerDisjuncts (taken : List String) : List (List Literal) → Fresh (List Term)
  | [] => pure []
  | c :: cs => do
    let ts ← lowerLiterals taken c
    let rest ← lowerDisjuncts taken cs
    pure (.conjunction ts :: rest)

def lowerLiterals (taken : List String) : List Literal → Fresh (List Term)
  | [] => pure []
  | l :: ls => do
    let t ← lowerLiteral taken l
    let ts ← lowerLiterals taken ls
    pure (t :: ts)

end

def lowerGoal (f : Formula) : Term := (lowerFormula f.vars f 0).1

def labelClause (kind : LabelKind) (l : Label) : Clause :=
  let x : Term := .named "X"
  ⟨.compound l.predicate [x],
    [.compound kind.predicate [x], .compound "attribute" [x, .atom "label", .atom l.value]]⟩

def factClause (head : Call) : Clause := ⟨(lowerCall head.vars head 0).1, []⟩

def ruleClause (head : Call) (alternative : List Literal) : Clause :=
  let taken := head.vars ++ Literal.varsAll alternative
  let (h, n) := lowerCall taken head 0
  ⟨h, (lowerLiterals taken alternative n).1⟩

def queryClause (name : String) (vars : List String) (alternative : List Literal) : Clause :=
  ⟨.apply name (vars.map .named),
    (lowerLiterals (Literal.varsAll alternative) alternative 0).1⟩

def queryFact (name : String) (arity : Nat) : Clause :=
  ⟨.compound "query" [.atom name, .int arity], []⟩

def ruleClauses (r : Rule) : List Clause :=
  match r.antecedent? with
  | none => r.consequence.map factClause
  | some f =>
    let alternatives := f.alternatives
    r.consequence.flatMap fun head => alternatives.map (ruleClause head)

def queryClauses (q : Query) : List Clause :=
  let vars := q.headVariables
  queryFact q.name vars.length :: q.body.alternatives.map (queryClause q.name vars)

def itemClauses : Item → List Clause
  | .labels d => d.labels.map (labelClause d.kind)
  | .rule r => ruleClauses r
  | .query q => queryClauses q

def expanded? : Item → Option Formula
  | .labels _ => none
  | .rule r => r.antecedent?
  | .query q => some q.body

def expansionWarning? (threshold : Nat) (i : Item) : Option Diagnostic :=
  (expanded? i).bind fun f =>
    if threshold < f.count then
      some ⟨.lowering, .warning, "W101",
        "statement expands into " ++ toString f.count ++ " alternatives (threshold " ++
          toString threshold ++ ")", some i.span⟩
    else none

end GraphRules.Lowering

namespace GraphRules

structure Program where
  clauses : List Clause
  warnings : List Diagnostic := []
  deriving Inhabited

def Script.lower (threshold : Nat) (s : Script) : Program :=
  ⟨s.items.flatMap Lowering.itemClauses, s.items.filterMap (Lowering.expansionWarning? threshold)⟩

end GraphRules
