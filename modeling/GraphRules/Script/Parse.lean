import GraphRules.Diagnostic
import GraphRules.Script.Expected

/-! Texts as scripts and goals, or what is wrong with them. -/
namespace GraphRules.Script

inductive Fault where
  | malformed (text : String)
  | oversized (text : String)
  | expected (parts : List Part)

namespace Fault

def code : Fault → String
  | .malformed _ => "S002"
  | .oversized _ => "S001"
  | .expected _ => "S001"

def excerpt (text : String) : String :=
  let cs := Text.trimBlanks text.toList
  if 50 < cs.length then String.ofList (cs.take 47) ++ "..." else String.ofList cs

def message : Fault → String
  | .malformed text => "unexpected syntax: `" ++ excerpt text ++ "`"
  | .oversized text => "integer literal `" ++ text ++ "` out of range"
  | .expected parts => "expected " ++ orList (parts.map Part.text)

def diagnostic (f : Fault) (span : Span) : Diagnostic :=
  ⟨.reading, .error, f.code, f.message, some span⟩

end Fault

namespace Statement

def item? : Statement → Option Item
  | .item i => some i
  | _ => none

def diagnostic? : Statement → Option Diagnostic
  | .item _ => none
  | .oversized text span => some (Fault.diagnostic (.oversized text) span)
  | .malformed text span => some (Fault.diagnostic (.malformed text) span)

end Statement

def parse (text : String) : Except (List Diagnostic) Script :=
  let ss := statements text
  match ss.filterMap Statement.diagnostic? with
  | [] => .ok ⟨ss.filterMap Statement.item?⟩
  | ds => .error ds

def parseGoal (text : String) : Except (List Diagnostic) Formula :=
  match goal { rest := text.toList } with
  | some (f, c) =>
    match c.oversized? with
    | some (s, span) => .error [Fault.diagnostic (.oversized s) span]
    | none => .ok f
  | none =>
    let (p, parts) := expectedIn text
    .error [Fault.diagnostic (.expected parts) (.between p p)]

end GraphRules.Script
