import GraphRules.Term.Basic

/-! The text of terms and clauses. Names that are not plain stand between single quotes, and
comparisons and connectives between their operands. -/
namespace GraphRules

def isPlainName (s : String) : Bool :=
  match s.toList with
  | [] => false
  | c :: cs => c.isLower && cs.all fun c => c.isAlphanum || c = '_'

def escapeName (c : Char) : List Char :=
  if c = '\'' then ['\\', '\'']
  else if c = '\\' then ['\\', '\\']
  else if c = '\n' then ['\\', 'n']
  else [c]

def nameText (s : String) : String :=
  if isPlainName s then s
  else String.ofList ('\'' :: s.toList.flatMap escapeName ++ ['\''])

def comparisonNames : List String := ["==", "!=", "<", "<=", ">", ">="]

def Var.text (v : Var) : String :=
  if v.scope = 0 then v.name
  else "_" ++ String.ofList (v.name.toList.dropWhile (· = '_')) ++ "_" ++ toString v.scope

def Signature.text (s : Signature) : String := s.name ++ "/" ++ toString s.arity

namespace Term

mutual

def text : Term → String
  | .atom name => nameText name
  | .number n => n.text
  | .var v => v.text
  | .compound f as =>
    match textList as with
    | [a, b] =>
      if f ∈ comparisonNames then a ++ " " ++ f ++ " " ++ b
      else if f = "," then "(" ++ a ++ ", " ++ b ++ ")"
      else if f = ";" then "(" ++ a ++ " ; " ++ b ++ ")"
      else nameText f ++ "(" ++ a ++ ", " ++ b ++ ")"
    | texts => nameText f ++ "(" ++ ", ".intercalate texts ++ ")"

def textList : List Term → List String
  | [] => []
  | a :: as => a.text :: textList as

end

end Term

def Clause.text (c : Clause) : String :=
  match c.body with
  | [] => c.head.text ++ "."
  | goals => c.head.text ++ " :- " ++ ", ".intercalate (Term.textList goals) ++ "."

end GraphRules
