import GraphRules.Library.Basic

/-! The standard library: the shape of the graph, attributes, and measures of nodes, edges and the
graph. -/
namespace GraphRules.Standard

def fact (name : String) (ids : List String) : Clause := ⟨.compound name (ids.map .atom), []⟩

def shapeFacts (g : Graph) : List Clause :=
  fact "graph" [g.id] ::
    (g.nodes.map (fun n => fact "node" [n.id]) ++
      g.edges.flatMap fun e =>
        [fact "edge" [e.id], fact "edge" [e.source, e.target],
        fact "edge" [e.source, e.target, e.id]])

def shape : Declarations :=
  { derivations := [⟨[⟨"graph", 1⟩, ⟨"node", 1⟩, ⟨"edge", 1⟩, ⟨"edge", 2⟩, ⟨"edge", 3⟩],
    shapeFacts⟩] }

def attributes : Declarations := { predicates := [.ofAttributes] }

def numeric (scope : Scope) (m : NumericMeasure) : Predicate := .ofNumeric m.name scope m

def boolean (scope : Scope) (m : BooleanMeasure) : Predicate := .ofBoolean m.name scope m

def nodeMeasures : Declarations :=
  { predicates :=
    [numeric .ofNodes .degree, numeric .ofNodes .inDegree, numeric .ofNodes .outDegree,
      numeric .ofNodes .componentSize, boolean .ofNodes .isLeaf, boolean .ofNodes .isRoot,
      boolean .ofNodes .isIsolated] }

def edgeMeasures : Declarations :=
  { predicates :=
    [numeric .ofEdges .multiplicity, boolean .ofEdges .isLoop,
      boolean (Scope.ofEdges.union .ofGraph) .isDirected] }

def graphMeasures : Declarations :=
  { predicates :=
    [numeric .ofGraph .nodeCount, numeric .ofGraph .edgeCount, boolean .ofGraph .isConnected] }

def declarations : Declarations :=
  [attributes, nodeMeasures, edgeMeasures, graphMeasures].foldl Declarations.append shape

def library (g : Graph) : Library := .ofGraph declarations g

end GraphRules.Standard
