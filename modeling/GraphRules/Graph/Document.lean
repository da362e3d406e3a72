import GraphRules.Graph.Basic

/-! Graphs as documents list them. -/
namespace GraphRules

structure EdgeDocument where
  id? : Option String
  source : String
  target : String
  attributes : Attributes
  deriving DecidableEq, Inhabited

structure GraphDocument where
  id : String := "graph"
  directed : Bool := true
  attributes : Attributes := []
  nodes : List Node := []
  edges : List EdgeDocument := []
  deriving DecidableEq, Inhabited

/-- The edge at a position of the list; without an id it is named after the position. -/
def EdgeDocument.toEdge (d : EdgeDocument) (position : Nat) : Edge :=
  ⟨d.id?.getD ("e" ++ toString position), d.source, d.target, d.attributes⟩

namespace GraphDocument

def addEdges : Nat → List EdgeDocument → Graph → Except GraphError Graph
  | _, [], g => .ok g
  | i, d :: ds, g => do addEdges (i + 1) ds (← g.addEdge (d.toEdge i))

def toGraph (d : GraphDocument) : Except GraphError Graph := do
  let g : Graph := { id := d.id, directed := d.directed, attributes := d.attributes }
  let g ← d.nodes.foldlM Graph.addNode g
  addEdges 0 d.edges g

end GraphDocument

end GraphRules
