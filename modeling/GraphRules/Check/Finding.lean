import GraphRules.Diagnostic
import GraphRules.Script.Text

/-! What checking a script can find. -/
namespace GraphRules

inductive Finding where
  | undefined (name : String) (arity : Nat)
  /-- A known predicate with another number of arguments. -/
  | wrongArity (name : String) (arities : List Nat) (found : Nat)
  /-- A definition with another arity than the first one. -/
  | redefinedArity (name : String) (arity first : Nat) (place : Span)
  | unboundInFact (variableName : String)
  | unboundInConsequence (variableName : String) (consequence : Call)
  | alreadyDeclared (name : String) (place : Span)
  | knownPredicate (name : String) (reserved : Bool)
  | symbolCompared (op : Comparator) (side : Arg)
  | numberForSymbol (role : String) (call : Call) (found : Arg)
  | symbolForNumber (call : Call) (found : Arg)
  | wildcardInConsequence (consequence : Call)
  | comparedUnbound (variableName : String)
  | negatedUnbound (variableName : String)
  | noPredicateName (label : String)
  | singleton (variableName : String)
  | unusedLabel (name : String)
  | repeated (place : Span)
  | partlyUnbound (variableName query : String)
  deriving DecidableEq

namespace Finding

def severity : Finding → Severity
  | .singleton _ => .warning
  | .unusedLabel _ => .warning
  | .repeated _ => .warning
  | .partlyUnbound _ _ => .warning
  | _ => .error

def code : Finding → String
  | .undefined _ _ => "E001"
  | .wrongArity _ _ _ => "E002"
  | .redefinedArity _ _ _ _ => "E002"
  | .unboundInFact _ => "E003"
  | .unboundInConsequence _ _ => "E003"
  | .alreadyDeclared _ _ => "E004"
  | .knownPredicate _ _ => "E005"
  | .symbolCompared _ _ => "E006"
  | .numberForSymbol _ _ _ => "E006"
  | .symbolForNumber _ _ => "E006"
  | .wildcardInConsequence _ => "E007"
  | .comparedUnbound _ => "E008"
  | .negatedUnbound _ => "E008"
  | .noPredicateName _ => "E009"
  | .singleton _ => "W001"
  | .unusedLabel _ => "W002"
  | .repeated _ => "W003"
  | .partlyUnbound _ _ => "W004"

def message : Finding → String
  | .undefined name arity => "undefined predicate `" ++ name ++ "/" ++ toString arity ++ "`"
  | .wrongArity name arities found =>
    "`" ++ name ++ "` takes " ++ " or ".intercalate (arities.map toString) ++
      " argument(s), found " ++
      toString found
  | .redefinedArity name arity first place =>
    "`" ++ name ++ "` has arity " ++ toString arity ++ " here but was defined with arity " ++
      toString first ++ " at " ++ place.text
  | .unboundInFact v => "variable `" ++ v ++ "` in a fact is never bound"
  | .unboundInConsequence v c =>
    "variable `" ++ v ++ "` in `" ++ c.text ++ "` is not bound by the antecedent"
  | .alreadyDeclared name place => "`" ++ name ++ "` is already declared at " ++ place.text
  | .knownPredicate name reserved =>
    "`" ++ name ++ "` is a " ++ (if reserved then "reserved" else "built-in") ++
      " predicate and cannot be defined"
  | .symbolCompared op side =>
    "`" ++ op.symbol ++ "` needs numbers but `" ++ side.text ++ "` is a symbol"
  | .numberForSymbol role c found =>
    role ++ " in `" ++ c.text ++ "` must be a symbol, found " ++ found.text
  | .symbolForNumber c found =>
    "metric value in `" ++ c.text ++ "` must be a number, found " ++ found.text
  | .wildcardInConsequence c => "wildcard in consequence `" ++ c.text ++ "`"
  | .comparedUnbound v => "variable `" ++ v ++ "` is compared before it is bound"
  | .negatedUnbound v => "variable `" ++ v ++ "` is negated before it is bound"
  | .noPredicateName label =>
    "label \"" ++ label ++ "\" is not a valid predicate name; add `as <name>`"
  | .singleton v => "variable `" ++ v ++ "` occurs only once; use `_` if intended"
  | .unusedLabel name => "label predicate `" ++ name ++ "` is never used"
  | .repeated place => "statement repeats the one at " ++ place.text
  | .partlyUnbound v q =>
    "variable `" ++ v ++ "` of query `" ++ q ++ "` is unbound in some alternatives"

def diagnostic (f : Finding) (span : Span) : Diagnostic :=
  ⟨.checking, f.severity, f.code, f.message, some span⟩

end Finding

end GraphRules
