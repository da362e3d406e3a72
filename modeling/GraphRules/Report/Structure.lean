import GraphRules.Data
import GraphRules.Engine.Solutions
import GraphRules.Program.Basic

/-! Programs, answers and diagnostics as structured data. -/
namespace GraphRules

def Number.data : Number → Data
  | .int n => .variant "int" (.int n)
  | .float x => .variant "float" (.float x)

def Var.data (v : Var) : Data := .record [("name", .text v.name), ("scope", .nat v.scope)]

namespace Term

mutual

def data : Term → Data
  | .atom name => .variant "atom" (.text name)
  | .number n => .variant "number" n.data
  | .var v => .variant "var" v.data
  | .compound f as => .variant "compound" (.list [.text f, .list (dataList as)])

def dataList : List Term → List Data
  | [] => []
  | a :: as => a.data :: dataList as

end

end Term

def Clause.data (c : Clause) : Data :=
  .record [("head", c.head.data), ("body", .list (Term.dataList c.body))]

def Span.data (s : Span) : Data :=
  .record [("start", .nat s.start), ("end", .nat s.stop), ("line", .nat s.line),
    ("column", .nat s.column)]

def Diagnostic.data (d : Diagnostic) : Data :=
  .record [("phase", .text d.phase.name), ("severity", .text d.severity.name),
    ("code", .text d.code), ("message", .text d.message), ("span", .option Span.data d.span?)]

def Program.data (p : Program) : Data :=
  .record [("clauses", .list (p.clauses.map Clause.data)),
    ("warnings", .list (p.warnings.map Diagnostic.data))]

def Solution.data (s : Solution) : Data := .record (s.bindings.map fun (name, t) => (name, t.data))

structure QueryAnswers where
  query : String
  solutions : List Solution
  /-- Whether the search was cut short at the depth limit. -/
  truncated : Bool

def QueryAnswers.data (a : QueryAnswers) : Data :=
  .record ([("query", .text a.query), ("solutions", .list (a.solutions.map Solution.data))] ++
    if a.truncated then [("truncated", .bool true)] else [])

end GraphRules
