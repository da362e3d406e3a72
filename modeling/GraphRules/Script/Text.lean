import GraphRules.Script.Tree
import GraphRules.Text.Quoted

/-! The canonical text of script items, which leaves spans out. -/
namespace GraphRules

def ArgKind.text : ArgKind → String
  | .var name => name
  | .wildcard => "_"
  | .symbol name => name
  | .quoted s => Text.quote s
  | .int n => toString n
  | .float x => Layout.script.render x

def Arg.text (a : Arg) : String := a.kind.text

def Call.text (c : Call) : String :=
  match c.args with
  | [] => c.name
  | args => c.name ++ "(" ++ ", ".intercalate (args.map Arg.text) ++ ")"

def Comparison.text (c : Comparison) : String :=
  c.left.text ++ " " ++ c.op.symbol ++ " " ++ c.right.text

mutual

def Literal.text : Literal → String
  | .call c => c.text
  | .negated f _ => "not (" ++ f.text ++ ")"
  | .compare c => c.text
  | .group f => "(" ++ f.text ++ ")"

def Formula.text : Formula → String
  | .mk ds _ => "; ".intercalate (Formula.texts ds)

def Formula.texts : List (List Literal) → List String
  | [] => []
  | c :: cs => ", ".intercalate (Literal.texts c) :: Formula.texts cs

def Literal.texts : List Literal → List String
  | [] => []
  | l :: ls => l.text :: Literal.texts ls

end

def Label.text (l : Label) : String :=
  match l.alias? with
  | none => Text.quote l.value
  | some name => Text.quote l.value ++ " as " ++ name

def Item.text : Item → String
  | .labels d =>
    d.kind.predicate ++ " labels: " ++ ", ".intercalate (d.labels.map Label.text) ++ "."
  | .rule d =>
    let condition := match d.antecedent? with
      | some f => f.text ++ " -> "
      | none => ""
    condition ++ ", ".intercalate (d.consequence.map Call.text) ++ "."
  | .query d => "query " ++ d.name ++ ": " ++ d.body.text ++ "."

end GraphRules
