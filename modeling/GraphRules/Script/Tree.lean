import GraphRules.Number.Basic
import GraphRules.Text.Span

/-! Scripts as trees. Every construct keeps the span it was read from. -/
namespace GraphRules

inductive Comparator where
  | eq | ne | lt | le | gt | ge
  deriving DecidableEq, Inhabited

namespace Comparator

def all : List Comparator := [.eq, .ne, .lt, .le, .gt, .ge]

def symbol : Comparator → String
  | .eq => "=="
  | .ne => "!="
  | .lt => "<"
  | .le => "<="
  | .gt => ">"
  | .ge => ">="

def ofSymbol? (s : String) : Option Comparator := all.find? fun c => c.symbol = s

def isOrdering : Comparator → Bool
  | .eq => false
  | .ne => false
  | _ => true

end Comparator

inductive ArgKind where
  | var (name : String)
  | wildcard
  | symbol (name : String)
  | quoted (value : String)
  | int (value : Int)
  | float (value : Binary64)
  deriving DecidableEq, Inhabited

structure Arg where
  kind : ArgKind
  span : Span
  deriving DecidableEq, Inhabited

namespace Arg

def varName? (a : Arg) : Option String :=
  match a.kind with
  | .var name => some name
  | _ => none

def isNumber (a : Arg) : Bool :=
  match a.kind with
  | .int _ => true
  | .float _ => true
  | _ => false

def isSymbol (a : Arg) : Bool :=
  match a.kind with
  | .symbol _ => true
  | .quoted _ => true
  | _ => false

end Arg

structure Call where
  name : String
  args : List Arg
  span : Span
  deriving DecidableEq, Inhabited

namespace Call

def arity (c : Call) : Nat := c.args.length

def vars (c : Call) : List String := c.args.filterMap Arg.varName?

end Call

structure Comparison where
  op : Comparator
  left : Arg
  right : Arg
  span : Span
  deriving DecidableEq, Inhabited

def Comparison.vars (c : Comparison) : List String :=
  c.left.varName?.toList ++ c.right.varName?.toList

mutual

inductive Literal where
  | call (c : Call)
  | negated (inner : Formula) (span : Span)
  | compare (c : Comparison)
  /-- A formula in parentheses. -/
  | group (inner : Formula)

inductive Formula where
  | mk (disjuncts : List (List Literal)) (span : Span)

end

instance : Inhabited Formula := ⟨.mk [] default⟩

namespace Formula

def disjuncts : Formula → List (List Literal)
  | .mk ds _ => ds

def span : Formula → Span
  | .mk _ s => s

end Formula

mutual

def Literal.vars : Literal → List String
  | .call c => c.vars
  | .negated f _ => f.vars
  | .compare c => c.vars
  | .group f => f.vars

def Formula.vars : Formula → List String
  | .mk ds _ => Formula.varsAll ds

def Formula.varsAll : List (List Literal) → List String
  | [] => []
  | c :: cs => Literal.varsAll c ++ Formula.varsAll cs

def Literal.varsAll : List Literal → List String
  | [] => []
  | l :: ls => l.vars ++ Literal.varsAll ls

end

mutual

def Literal.visible : Literal → List String
  | .call c => c.vars
  | .negated _ _ => []
  | .compare c => c.vars
  | .group f => f.visible

def Formula.visible : Formula → List String
  | .mk ds _ => Formula.visibleAll ds

def Formula.visibleAll : List (List Literal) → List String
  | [] => []
  | c :: cs => Literal.visibleAll c ++ Formula.visibleAll cs

def Literal.visibleAll : List Literal → List String
  | [] => []
  | l :: ls => l.visible ++ Literal.visibleAll ls

end

inductive LabelKind where
  | node | edge
  deriving DecidableEq, Inhabited

def LabelKind.predicate : LabelKind → String
  | .node => "node"
  | .edge => "edge"

structure Label where
  value : String
  alias? : Option String
  span : Span
  deriving DecidableEq, Inhabited

def Label.predicate (l : Label) : String := l.alias?.getD l.value

structure LabelDecl where
  kind : LabelKind
  labels : List Label
  span : Span
  deriving Inhabited

/-- Consequences of a formula; facts when there is none. -/
structure Rule where
  antecedent? : Option Formula
  consequence : List Call
  span : Span
  deriving Inhabited

structure Query where
  name : String
  nameSpan : Span
  body : Formula
  span : Span
  deriving Inhabited

/-- The answer variables: those outside negations, in order of their first occurrence. -/
def Query.headVariables (q : Query) : List String := q.body.visible.eraseDups

inductive Item where
  | labels (decl : LabelDecl)
  | rule (decl : Rule)
  | query (decl : Query)
  deriving Inhabited

def Item.span : Item → Span
  | .labels d => d.span
  | .rule d => d.span
  | .query d => d.span

structure Script where
  items : List Item
  deriving Inhabited

end GraphRules
