import GraphRules.Graph.Basic

/-! Measures of graph elements. A measure has no value for elements of a kind it is not defined for.
-/
namespace GraphRules

namespace Graph

def inCount (g : Graph) (node : String) : Nat := g.edges.countP fun e => e.target = node

def outCount (g : Graph) (node : String) : Nat := g.edges.countP fun e => e.source = node

/-- A loop counts at both of its ends. -/
def degree (g : Graph) (node : String) : Nat := g.inCount node + g.outCount node

/-- Adds to the ids seen those that can be reached through the ids waiting. Each step takes one of
the latter. -/
def explore (g : Graph) : Nat → List String → List String → List String
  | 0, seen, _ => seen
  | _, seen, [] => seen
  | n + 1, seen, current :: waiting =>
    let fresh := ((g.neighbors current).filter fun id => id ∉ seen).eraseDups
    explore g n (seen ++ fresh) (waiting ++ fresh)

/-- The ids that can be reached from one along edges in either direction. Each of them is an end of
an edge or the start, and waits once. -/
def component (g : Graph) (start : String) : List String :=
  g.explore (2 * g.edges.length + 1) [start] [start]

/-- Edges between the same ends; direction matters in a directed graph only. -/
def parallels (g : Graph) (e : Edge) : List Edge :=
  g.edges.filter fun f =>
    (f.source = e.source && f.target = e.target) ||
      (!g.directed && f.source = e.target && f.target = e.source)

def isConnected (g : Graph) : Bool :=
  match g.nodes with
  | [] => true
  | n :: _ => (g.component n.id).length = g.nodes.length

end Graph

inductive NumericMeasure where
  | degree | inDegree | outDegree | componentSize | multiplicity | nodeCount | edgeCount
  deriving DecidableEq, Inhabited

namespace NumericMeasure

def all : List NumericMeasure :=
  [.degree, .inDegree, .outDegree, .componentSize, .multiplicity, .nodeCount, .edgeCount]

def name : NumericMeasure → String
  | .degree => "degree"
  | .inDegree => "in_degree"
  | .outDegree => "out_degree"
  | .componentSize => "component_size"
  | .multiplicity => "multiplicity"
  | .nodeCount => "node_count"
  | .edgeCount => "edge_count"

/-- Without directions, every edge at a node comes in and goes out. -/
def value? (m : NumericMeasure) (g : Graph) (e : Element) : Option Nat :=
  match m, e with
  | .degree, .node n => some (g.degree n.id)
  | .inDegree, .node n => some (if g.directed then g.inCount n.id else g.degree n.id)
  | .outDegree, .node n => some (if g.directed then g.outCount n.id else g.degree n.id)
  | .componentSize, .node n => some (g.component n.id).length
  | .multiplicity, .edge e => some (g.parallels e).length
  | .nodeCount, .graph _ => some g.nodes.length
  | .edgeCount, .graph _ => some g.edges.length
  | _, _ => none

end NumericMeasure

inductive BooleanMeasure where
  | isLeaf | isRoot | isIsolated | isLoop | isDirected | isConnected
  deriving DecidableEq, Inhabited

namespace BooleanMeasure

def all : List BooleanMeasure :=
  [.isLeaf, .isRoot, .isIsolated, .isLoop, .isDirected, .isConnected]

def name : BooleanMeasure → String
  | .isLeaf => "is_leaf"
  | .isRoot => "is_root"
  | .isIsolated => "is_isolated"
  | .isLoop => "is_loop"
  | .isDirected => "is_directed"
  | .isConnected => "is_connected"

/-- A leaf of a directed graph is entered and not left, and a root is left and not entered; a leaf
of an undirected graph has one edge end, and there are no roots. -/
def value? (m : BooleanMeasure) (g : Graph) (e : Element) : Option Bool :=
  match m, e with
  | .isLeaf, .node n =>
    some (if g.directed then g.outCount n.id = 0 && 0 < g.inCount n.id else g.degree n.id = 1)
  | .isRoot, .node n => some (g.directed && g.inCount n.id = 0 && 0 < g.outCount n.id)
  | .isIsolated, .node n => some (g.degree n.id = 0)
  | .isLoop, .edge e => some e.isLoop
  | .isDirected, .edge _ => some g.directed
  | .isDirected, .graph _ => some g.directed
  | .isConnected, .graph _ => some g.isConnected
  | _, _ => none

end BooleanMeasure

end GraphRules
