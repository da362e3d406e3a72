import GraphRules.Check.Definitions

/-! The predicates a formula refers to, and the arguments it gives them. -/
namespace GraphRules.Check

def symbolExpected (c : Call) (role : String) (a : Arg) : List Found :=
  if a.isNumber then [(.numberForSymbol role c a, a.span)] else []

def argumentFindings (c : Call) : Role → List Found
  | .structural => c.args.flatMap (symbolExpected c "element id")
  | .attribute =>
    match c.args with
    | [id, name, _] =>
      symbolExpected c "element id" id ++ symbolExpected c "attribute name" name
    | _ => []
  | .numeric =>
    match c.args with
    | [id, value] =>
      symbolExpected c "element id" id ++
        (if value.isSymbol then [(.symbolForNumber c value, value.span)] else [])
    | _ => []
  | .boolean => (c.args.take 1).flatMap (symbolExpected c "element id")
  | .reserved => []

def referenceFindings (v : Vocabulary) (ds : List Definition) (c : Call) : List Found :=
  if v.containsName c.name then
    match v.role? ⟨c.name, c.arity⟩ with
    | some role => argumentFindings c role
    | none => [(.wrongArity c.name (v.arities c.name) c.arity, c.span)]
  else
    match findDefinition? ds c.name with
    | some d => if d.arity = c.arity then [] else [(.wrongArity c.name [d.arity] c.arity, c.span)]
    | none => [(.undefined c.name c.arity, c.span)]

def comparisonFindings (c : Comparison) : List Found :=
  if c.op.isOrdering then
    [c.left, c.right].flatMap fun side =>
      if side.isSymbol then [(.symbolCompared c.op side, side.span)] else []
  else []

mutual

def literalFindings (v : Vocabulary) (ds : List Definition) : Literal → List Found
  | .call c => referenceFindings v ds c
  | .negated f _ => formulaFindings v ds f
  | .compare c => comparisonFindings c
  | .group f => formulaFindings v ds f

def formulaFindings (v : Vocabulary) (ds : List Definition) : Formula → List Found
  | .mk disjuncts _ => disjunctFindings v ds disjuncts

def disjunctFindings (v : Vocabulary) (ds : List Definition) : List (List Literal) → List Found
  | [] => []
  | c :: cs => literalsFindings v ds c ++ disjunctFindings v ds cs

def literalsFindings (v : Vocabulary) (ds : List Definition) : List Literal → List Found
  | [] => []
  | l :: ls => literalFindings v ds l ++ literalsFindings v ds ls

end

mutual

def literalNames : Literal → List String
  | .call c => [c.name]
  | .negated f _ => formulaNames f
  | .compare _ => []
  | .group f => formulaNames f

def formulaNames : Formula → List String
  | .mk disjuncts _ => disjunctNames disjuncts

def disjunctNames : List (List Literal) → List String
  | [] => []
  | c :: cs => literalsNames c ++ disjunctNames cs

def literalsNames : List Literal → List String
  | [] => []
  | l :: ls => literalNames l ++ literalsNames ls

end

def condition? : Item → Option Formula
  | .labels _ => none
  | .rule r => r.antecedent?
  | .query q => some q.body

def referencedNames (items : List Item) : List String :=
  items.flatMap fun i => ((condition? i).map formulaNames).getD []

end GraphRules.Check
