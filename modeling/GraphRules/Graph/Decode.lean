import GraphRules.Encoding
import GraphRules.Graph.Document

/-! Graph documents in a text format. Missing fields take their defaults, nodes need an id, and
edges a source and a target. -/
namespace GraphRules

/-- A whole number beyond a signed word is a floating-point number. -/
def Attribute.ofScalar : Scalar → Attribute
  | .bool b => .bool b
  | .int n => if fitsWord n then .int n else .float (.ofInt n)
  | .float x => .float x
  | .text s => .text s

namespace GraphDocument

variable {τ : Type} {m : Type → Type} [Monad m]

def decodeAttributes (e : Encoding τ m) (depth : Nat) (t : τ) : m Attributes := do
  pure (Attributes.ofList
    (← e.members (fun t => do pure (Attribute.ofScalar (← e.scalar (depth + 1) t))) t))

structure NodeFields where
  id? : Option String := none
  attributes? : Option Attributes := none

def nodeFields (e : Encoding τ m) (depth : Nat) : List (Field τ m NodeFields) :=
  [⟨"id", fun s => s.id?.isSome, fun s t => do pure { s with id? := some (← e.string t) }⟩,
    ⟨"attributes", fun s => s.attributes?.isSome, fun s t => do
      pure { s with attributes? := some (← decodeAttributes e depth t) }⟩]

def decodeNode (e : Encoding τ m) (depth : Nat) (t : τ) : m Node := do
  let s ← e.record (nodeFields e (depth + 1)) {} t
  match s.id? with
  | some id => pure ⟨id, s.attributes?.getD []⟩
  | none => e.missing

structure EdgeFields where
  id? : Option (Option String) := none
  source? : Option String := none
  target? : Option String := none
  attributes? : Option Attributes := none

def edgeFields (e : Encoding τ m) (depth : Nat) : List (Field τ m EdgeFields) :=
  [⟨"id", fun s => s.id?.isSome, fun s t => do pure { s with id? := some (← e.option e.string t) }⟩,
    ⟨"source", fun s => s.source?.isSome,
    fun s t => do pure { s with source? := some (← e.string t) }⟩,
    ⟨"target", fun s => s.target?.isSome,
    fun s t => do pure { s with target? := some (← e.string t) }⟩,
    ⟨"attributes", fun s => s.attributes?.isSome, fun s t => do
      pure { s with attributes? := some (← decodeAttributes e depth t) }⟩]

def decodeEdge (e : Encoding τ m) (depth : Nat) (t : τ) : m EdgeDocument := do
  let s ← e.record (edgeFields e (depth + 1)) {} t
  match s.source?, s.target? with
  | some source, some target => pure ⟨s.id?.getD none, source, target, s.attributes?.getD []⟩
  | _, _ => e.missing

structure GraphFields where
  id? : Option String := none
  directed? : Option Bool := none
  attributes? : Option Attributes := none
  nodes? : Option (List Node) := none
  edges? : Option (List EdgeDocument) := none

def graphFields (e : Encoding τ m) : List (Field τ m GraphFields) :=
  [⟨"id", fun s => s.id?.isSome, fun s t => do pure { s with id? := some (← e.string t) }⟩,
    ⟨"directed", fun s => s.directed?.isSome, fun s t => do
      pure { s with directed? := some (← e.bool t) }⟩,
    ⟨"attributes", fun s => s.attributes?.isSome, fun s t => do
      pure { s with attributes? := some (← decodeAttributes e 1 t) }⟩,
    ⟨"nodes", fun s => s.nodes?.isSome, fun s t => do
      pure { s with nodes? := some (← e.list (decodeNode e 2) t) }⟩,
    ⟨"edges", fun s => s.edges?.isSome, fun s t => do
      pure { s with edges? := some (← e.list (decodeEdge e 2) t) }⟩]

def decode (e : Encoding τ m) (t : τ) : m GraphDocument := do
  let s ← e.record (graphFields e) {} t
  pure
    { id := s.id?.getD "graph"
      directed := s.directed?.getD true
      attributes := s.attributes?.getD []
      nodes := s.nodes?.getD []
      edges := s.edges?.getD [] }

end GraphDocument

end GraphRules
