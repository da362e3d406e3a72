import GraphRules.Text.Span

/-! What reading, checking and lowering have to say about a script. -/
namespace GraphRules

inductive Phase where
  | reading | checking | lowering
  deriving DecidableEq, Inhabited

def Phase.name : Phase → String
  | .reading => "syntax"
  | .checking => "check"
  | .lowering => "generate"

inductive Severity where
  | error | warning
  deriving DecidableEq, Inhabited

def Severity.name : Severity → String
  | .error => "error"
  | .warning => "warning"

structure Diagnostic where
  phase : Phase
  severity : Severity
  code : String
  message : String
  span? : Option Span
  deriving DecidableEq, Inhabited

namespace Diagnostic

def isError (d : Diagnostic) : Bool := d.severity = .error

def tag (d : Diagnostic) : String := d.severity.name ++ "[" ++ d.code ++ "]"

def text (d : Diagnostic) : String :=
  let place := match d.span? with
    | some s => " at " ++ s.text
    | none => ""
  d.tag ++ place ++ ": " ++ d.message

def errors (ds : List Diagnostic) : List Diagnostic := ds.filter isError

def warnings (ds : List Diagnostic) : List Diagnostic := ds.filter fun d => !d.isError

end Diagnostic

end GraphRules
