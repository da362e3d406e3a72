import GraphRules.Number.Basic

/-! Attributed graphs. Nodes, edges and the graph itself are elements, and no two of them share an
id. An index tells where the element with an id stands. -/
namespace GraphRules

inductive Attribute where
  | bool (b : Bool)
  | int (n : Int)
  | float (x : Binary64)
  | text (s : String)
  deriving DecidableEq, Inhabited

namespace Attribute

def render : Attribute → String
  | .bool b => if b then "true" else "false"
  | .int n => toString n
  | .float x => Layout.plainText.render x
  | .text s => s

def text? : Attribute → Option String
  | .text s => some s
  | _ => none

/-- The value as a number. Text is read; truth values never are numbers. -/
def number? : Attribute → Option Number
  | .bool _ => none
  | .int n => some (.int n)
  | .float x => some (.float x)
  | .text s => Number.read? s

end Attribute

abbrev Attributes := List (String × Attribute)

namespace Attributes

def set (as : Attributes) (name : String) (value : Attribute) : Attributes :=
  match as with
  | [] => [(name, value)]
  | (n, v) :: rest => if n = name then (name, value) :: rest else (n, v) :: set rest name value

def ofList (ps : List (String × Attribute)) : Attributes :=
  ps.foldl (fun as p => as.set p.1 p.2) []

end Attributes

structure Node where
  id : String
  attributes : Attributes := []
  deriving DecidableEq, Inhabited

structure Edge where
  id : String
  source : String
  target : String
  attributes : Attributes := []
  deriving DecidableEq, Inhabited

namespace Edge

def isLoop (e : Edge) : Bool := e.source = e.target

def touches (e : Edge) (node : String) : Bool := e.source = node || e.target = node

end Edge

inductive Slot where
  | graph
  | node (position : Nat)
  | edge (position : Nat)
  deriving DecidableEq, Inhabited

abbrev Index := List (String × Slot)

def Index.ofElements (id : String) (nodes : List Node) (edges : List Edge) : Index :=
  (id, .graph) :: (nodes.zipIdx.map (fun p => (p.1.id, .node p.2)) ++ edges.zipIdx.map fun p =>
    (p.1.id, .edge p.2))

structure Graph where
  id : String := "graph"
  directed : Bool := true
  attributes : Attributes := []
  nodes : List Node := []
  edges : List Edge := []
  index : Index := .ofElements id nodes edges
  deriving DecidableEq

instance : Inhabited Graph := ⟨{}⟩

inductive ElementKind where
  | node | edge | graph
  deriving DecidableEq, Inhabited

def ElementKind.name : ElementKind → String
  | .node => "node"
  | .edge => "edge"
  | .graph => "graph"

inductive Element where
  | node (n : Node)
  | edge (e : Edge)
  | graph (g : Graph)
  deriving DecidableEq, Inhabited

namespace Element

def kind : Element → ElementKind
  | .node _ => .node
  | .edge _ => .edge
  | .graph _ => .graph

def id : Element → String
  | .node n => n.id
  | .edge e => e.id
  | .graph g => g.id

def attributes : Element → Attributes
  | .node n => n.attributes
  | .edge e => e.attributes
  | .graph g => g.attributes

def attribute? (e : Element) (name : String) : Option Attribute := e.attributes.lookup name

end Element

inductive GraphError where
  | duplicateId (id : String)
  | unknownEndpoint (edge node : String)
  | unknownElement (id : String)
  deriving DecidableEq, Inhabited

def GraphError.message : GraphError → String
  | .duplicateId id => "duplicate element id: " ++ id
  | .unknownEndpoint edge node => "edge " ++ edge ++ " refers to unknown node " ++ node
  | .unknownElement id => "unknown element: " ++ id

namespace Graph

def slot? (g : Graph) (id : String) : Option Slot := g.index.lookup id

def element? (g : Graph) : Slot → Option Element
  | .graph => some (.graph g)
  | .node i => g.nodes[i]?.map .node
  | .edge i => g.edges[i]?.map .edge

def find? (g : Graph) (id : String) : Option Element := (g.slot? id).bind g.element?

/-- Changes to a graph. What was done before a failure stays done. -/
abbrev Edit := ExceptT GraphError (StateM Graph)

namespace Edit

def requireFresh (id : String) : Edit Unit := do
  if ((← get).slot? id).isSome then throw (.duplicateId id)

def requireNode (edge node : String) : Edit Unit := do
  match (← get).slot? node with
  | some (.node _) => pure ()
  | _ => throw (.unknownEndpoint edge node)

def addNode (n : Node) : Edit Unit := do
  requireFresh n.id
  modify fun g => { g with index := (n.id, .node g.nodes.length) :: g.index }
  modify fun g => { g with nodes := g.nodes ++ [n] }

/-- Adds an edge between nodes of the graph. The id is looked at before the ends, and the source
before the target. -/
def addEdge (e : Edge) : Edit Unit := do
  requireFresh e.id
  requireNode e.id e.source
  requireNode e.id e.target
  modify fun g => { g with index := (e.id, .edge g.edges.length) :: g.index }
  modify fun g => { g with edges := g.edges ++ [e] }

def setAttribute (id name : String) (value : Attribute) : Edit Unit := do
  match (← get).slot? id with
  | some .graph => modify fun g => { g with attributes := g.attributes.set name value }
  | some (.node i) =>
    modify fun g => { g with nodes := g.nodes.modify i fun n =>
      { n with attributes := n.attributes.set name value } }
  | some (.edge i) =>
    modify fun g => { g with edges := g.edges.modify i fun e =>
      { e with attributes := e.attributes.set name value } }
  | none => throw (.unknownElement id)

end Edit

def edit {α : Type} (g : Graph) (m : Edit α) : Except GraphError α × Graph := Id.run (m.run.run g)

def edited (g : Graph) (m : Edit Unit) : Except GraphError Graph :=
  let r := g.edit m
  r.1.map fun _ => r.2

def addNode (g : Graph) (n : Node) : Except GraphError Graph := g.edited (.addNode n)

def addEdge (g : Graph) (e : Edge) : Except GraphError Graph := g.edited (.addEdge e)

def setAttribute (g : Graph) (id name : String) (value : Attribute) : Except GraphError Graph :=
  g.edited (.setAttribute id name value)

def neighbors (g : Graph) (node : String) : List String :=
  g.edges.filterMap fun e =>
    if e.source = node then some e.target
    else if e.target = node then some e.source
    else none

end Graph

end GraphRules
