import GraphRules.Report.Structure

/-! Lines for a terminal, with colours if they are wanted. -/
namespace GraphRules.Report

inductive Style where
  | bold | dimmed | red | yellow | cyan
  deriving DecidableEq, Inhabited

def Style.code : Style → String
  | .bold => "1"
  | .dimmed => "2"
  | .red => "31"
  | .yellow => "33"
  | .cyan => "36"

def resetMark : List Char := ['\x1b', '[', '0', 'm']

def resume (mark : List Char) : List Char → List Char
  | '\x1b' :: '[' :: '0' :: 'm' :: cs => resetMark ++ mark ++ resume mark cs
  | c :: cs => c :: resume mark cs
  | [] => []

/-- The text between the marks that turn styles on and off. What the text itself turns off goes on
after that. -/
def paint (color : Bool) (styles : List Style) (s : String) : String :=
  if color then
    let mark := ("\x1b[" ++ ";".intercalate (styles.map Style.code) ++ "m").toList
    String.ofList (mark ++ resume mark s.toList ++ resetMark)
  else s

def pad (width : Nat) (s : String) : String :=
  s ++ String.ofList (List.replicate (width - s.length) ' ')

def diagnosticLine (color : Bool) (source : String) (d : Diagnostic) : String :=
  let location := match d.span? with
    | some s => source ++ ":" ++ s.text
    | none => source
  let tone := match d.severity with
    | .error => Style.red
    | .warning => Style.yellow
  paint color [.bold] location ++ ": " ++ paint color [.bold, tone] d.tag ++ ": " ++ d.message

def diagnosticLines (color : Bool) (source : String) (ds : List Diagnostic) : List String :=
  let errors := (Diagnostic.errors ds).length
  let warnings := (Diagnostic.warnings ds).length
  let summary :=
    if 0 < errors then
      [paint color [.red] (toString errors ++ " error(s), " ++ toString warnings ++ " warning(s)")]
    else if 0 < warnings then [paint color [.yellow] (toString warnings ++ " warning(s)")]
    else []
  ds.map (diagnosticLine color source) ++ summary

def answerLines (color : Bool) (a : QueryAnswers) : List String :=
  let solutions := match a.solutions with
    | [] => ["  " ++ paint color [.dimmed] "false"]
    | ss => ss.map fun s => "  " ++ s.text
  let ending :=
    if a.truncated then ["  " ++ paint color [.yellow] "(search depth limit reached)"] else []
  paint color [.bold, .cyan] a.query :: (solutions ++ ending)

def predicateLine (color : Bool) (p : Predicate) : String :=
  "  " ++ paint color [.bold] (pad 22 p.signature.text) ++ " " ++ pad 10 p.kind.name ++ " " ++
    paint color [.dimmed] p.scope.text

def predicateLines (color : Bool) (ps : List Predicate) : List String :=
  paint color [.bold, .yellow] "GRAPH PREDICATES" :: ps.map (predicateLine color)

end GraphRules.Report
