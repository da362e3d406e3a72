import GraphRules.Graph.Decode
import GraphRules.Json.Decode
import GraphRules.Text.Path
import GraphRules.Yaml.Decode

/-! Graphs from text. -/
namespace GraphRules

inductive DocumentFormat where
  | json | yaml
  deriving DecidableEq, Inhabited

namespace DocumentFormat

def name : DocumentFormat → String
  | .json => "json"
  | .yaml => "yaml"

/-- The format of a graph in a file; JSON unless the name says YAML. -/
def ofGraphPath (path : String) : DocumentFormat :=
  match Path.lowerExtension? path with
  | some "yaml" => .yaml
  | some "yml" => .yaml
  | _ => .json

end DocumentFormat

inductive DocumentError where
  | json (fault : Json.Fault)
  | yaml (fault : Yaml.Fault)
  deriving DecidableEq, Inhabited

inductive GraphTextError where
  | document (error : DocumentError)
  | graph (error : GraphError)
  deriving Inhabited

namespace GraphDocument

def ofText (f : DocumentFormat) (text : String) : Except DocumentError GraphDocument :=
  match f with
  | .json => (Json.decode (decode Json.encoding) text).mapError .json
  | .yaml => (Yaml.decode (decode Yaml.encoding) text).mapError .yaml

end GraphDocument

def Graph.ofText (f : DocumentFormat) (text : String) : Except GraphTextError Graph := do
  let d ← (GraphDocument.ofText f text).mapError .document
  d.toGraph.mapError .graph

end GraphRules
