import GraphRules.Check.References
import GraphRules.Check.Safety

/-! Checking a script against the predicates that are known. The whole script is looked at, whatever
is found. -/
namespace GraphRules.Check

def wildcardFindings (consequence : List Call) : List Found :=
  consequence.flatMap fun c => c.args.filterMap fun a =>
    if a.kind = .wildcard then some (.wildcardInConsequence c, a.span) else none

/-- A fact has nothing that could bind its variables. -/
def factFindings (consequence : List Call) : List Found :=
  onceEach [] (consequence.flatMap fun c => c.args.filterMap fun a =>
    a.varName?.map fun v => (.unboundInFact v, a.span))

def ruleFindings (v : Vocabulary) (ds : List Definition) (r : Rule) : List Found :=
  let headVariables := r.consequence.flatMap Call.vars
  wildcardFindings r.consequence ++
    match r.antecedent? with
    | none => factFindings r.consequence ++ singletonFindings headVariables r.span
    | some f =>
      formulaFindings v ds f ++
        onceEach [] (f.alternatives.flatMap fun a =>
          hazards headVariables a ++ unboundFindings r.consequence a) ++
        singletonFindings (headVariables ++ f.vars) r.span

def queryFindings (v : Vocabulary) (ds : List Definition) (q : Query) : List Found :=
  formulaFindings v ds q.body ++
    onceEach [] (q.body.alternatives.flatMap fun a =>
      hazards [] a ++ partlyUnboundFindings q a)

def itemFindings (v : Vocabulary) (ds : List Definition) : Item → List Found
  | .labels _ => []
  | .rule r => ruleFindings v ds r
  | .query q => queryFindings v ds q

def repeatedFindings (earlier : List Item) (i : Item) : List Found :=
  match earlier.find? fun j => j.text = i.text with
  | some j => [(.repeated j.span, i.span)]
  | none => []

def itemsFindings (v : Vocabulary) (ds : List Definition) : List Item → List Item → List Found
  | _, [] => []
  | earlier, i :: is =>
    repeatedFindings earlier i ++ itemFindings v ds i ++ itemsFindings v ds (earlier ++ [i]) is

def unusedLabels (items : List Item) : List Found :=
  let used := referencedNames items
  items.flatMap fun
    | .labels d =>
      (d.labels.filter fun l => l.predicate ∉ used).map fun l => (.unusedLabel l.predicate, l.span)
    | _ => []

def findings (v : Vocabulary) (s : Script) : List Found :=
  let (ds, found) := defineAll v [] (s.items.flatMap entries)
  found ++ itemsFindings v ds [] s.items ++ unusedLabels s.items

structure Result where
  errors : List Diagnostic
  warnings : List Diagnostic
  deriving Inhabited

def Result.isOk (r : Result) : Bool := r.errors.isEmpty

end GraphRules.Check

namespace GraphRules

def Script.check (v : Vocabulary) (s : Script) : Check.Result :=
  let ds := (Check.findings v s).map fun (f, span) => f.diagnostic span
  ⟨Diagnostic.errors ds, Diagnostic.warnings ds⟩

end GraphRules
