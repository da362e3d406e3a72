import GraphRules.Json.Writer
import GraphRules.Report.Structure
import GraphRules.Text.Blank
import GraphRules.Yaml.Writer

/-! The formats in which programs and answers are written. -/
namespace GraphRules

inductive Format where
  | text | json | yaml
  deriving DecidableEq, Inhabited

namespace Format

def name : Format → String
  | .text => "text"
  | .json => "json"
  | .yaml => "yaml"

def ofName? (s : String) : Option Format :=
  match String.ofList (Text.lower s.toList) with
  | "text" => some .text
  | "txt" => some .text
  | "pl" => some .text
  | "json" => some .json
  | "yaml" => some .yaml
  | "yml" => some .yaml
  | _ => none

def renderProgram (f : Format) (p : Program) : Except Yaml.WriteError String :=
  match f with
  | .text => .ok p.text
  | .json => .ok (Json.pretty "" p.data)
  | .yaml => Yaml.write p.data

def answerLines (a : QueryAnswers) : List String :=
  (a.query ++ ":") ::
    match a.solutions with
    | [] => ["  false"]
    | ss => ss.map fun s => "  " ++ s.text

def renderAnswers (f : Format) (as : List QueryAnswers) : Except Yaml.WriteError String :=
  match f with
  | .text => .ok ("\n".intercalate (as.flatMap answerLines) ++ "\n")
  | .json => .ok (Json.pretty "" (.list (as.map QueryAnswers.data)))
  | .yaml => Yaml.write (.list (as.map QueryAnswers.data))

end Format

end GraphRules
