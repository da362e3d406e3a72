import GraphRules.Proofs.GraphEdits
import Mathlib.Data.List.Induction

/-! Graphs from documents. A document gives a graph exactly if no id stands for two things and every
edge is between nodes; the graph is then what the document lists. Otherwise loading stops at the
first element that offends, with what is wrong with it. -/
namespace GraphRules

namespace GraphDocument

inductive Entry where
  | node (n : Node)
  | edge (e : Edge)
  deriving DecidableEq, Inhabited

namespace Entry

def id : Entry → String
  | .node n => n.id
  | .edge e => e.id

def node? : Entry → Option Node
  | .node n => some n
  | .edge _ => none

def edge? : Entry → Option Edge
  | .node _ => none
  | .edge e => some e

def operation : Entry → Graph.Operation
  | .node n => .addNode n
  | .edge e => .addEdge e

theorem mem_ids (entries : List Entry) (x : String) : x ∈ entries.map id ↔
    x ∈ (entries.filterMap node?).map Node.id ∨ x ∈ (entries.filterMap edge?).map Edge.id := by
  induction entries with
  | nil => simp
  | cons entry entries ih => cases entry <;> simp [ih, id, node?, edge?, or_assoc, or_left_comm]

end Entry

variable (d : GraphDocument)

def namedEdges : List Edge := d.edges.mapIdx fun i e => e.toEdge i

def entries : List Entry := d.nodes.map .node ++ d.namedEdges.map .edge

def ids : List String := d.id :: (d.nodes.map Node.id ++ d.namedEdges.map Edge.id)

/-- What is wrong with an element after those before it: its id is taken, or else its source is no
node, or else its target is no node. -/
inductive Offends (before : List Entry) : Entry → GraphError → Prop
  | duplicate {entry : Entry} (taken : entry.id ∈ d.id :: before.map Entry.id) :
      Offends before entry (.duplicateId entry.id)
  | source {e : Edge} (fresh : e.id ∉ d.id :: before.map Entry.id)
    (source : e.source ∉ d.nodes.map Node.id) :
    Offends before (.edge e) (.unknownEndpoint e.id e.source)
  | target {e : Edge} (fresh : e.id ∉ d.id :: before.map Entry.id)
    (source : e.source ∈ d.nodes.map Node.id) (target : e.target ∉ d.nodes.map Node.id) :
    Offends before (.edge e) (.unknownEndpoint e.id e.target)

def Sound (entries : List Entry) : Prop :=
  ∀ before entry after e, entries = before ++ entry :: after → ¬ d.Offends before entry e

def FirstOffence (entries : List Entry) (e : GraphError) : Prop :=
  ∃ before entry after, entries = before ++ entry :: after ∧ d.Sound before ∧
    d.Offends before entry e

def blank : Graph := { id := d.id, directed := d.directed, attributes := d.attributes }

def load (entries : List Entry) : Except GraphError Graph :=
  entries.foldlM (fun g entry => g.edited entry.operation.edit) d.blank

theorem addEdges_eq (i : Nat) (ds : List EdgeDocument) (g : Graph) :
    addEdges i ds g = (ds.mapIdx fun j e => e.toEdge (i + j)).foldlM Graph.addEdge g := by
  induction ds generalizing i g with
  | nil => rfl
  | cons e ds ih =>
    rw [addEdges, List.mapIdx_cons, List.foldlM_cons]
    refine congrArg _ (funext fun g' => ?_)
    rw [ih (i + 1)]
    simp only [Nat.add_assoc, Nat.add_comm 1]

theorem toGraph_eq_load : d.toGraph = d.load d.entries := by
  rw [load, entries, List.foldlM_append, List.foldlM_map]
  refine congrArg _ (funext fun g => ?_)
  beta_reduce
  rw [addEdges_eq, List.foldlM_map, namedEdges]
  simp only [Nat.zero_add]
  rfl

theorem load_concat (before : List Entry) (entry : Entry) :
    d.load (before ++ [entry]) = d.load before >>= fun g => g.edited entry.operation.edit := by
  rw [load, List.foldlM_append]
  exact congrArg _ (funext fun g => bind_pure _)

variable {d} {entries : List Entry} {e e' : GraphError}

theorem filterMap_node_entries : d.entries.filterMap Entry.node? = d.nodes := by
  simp [entries, List.filterMap_map, Function.comp_def, Entry.node?]

theorem filterMap_edge_entries : d.entries.filterMap Entry.edge? = d.namedEdges := by
  simp [entries, List.filterMap_map, Function.comp_def, Entry.edge?]

theorem map_id_entries :
    d.entries.map Entry.id = d.nodes.map Node.id ++ d.namedEdges.map Edge.id := by
  simp [entries, Function.comp_def, Entry.id]

theorem filterMap_node_before {before after : List Entry} {e : Edge}
    (h : d.entries = before ++ .edge e :: after) : before.filterMap Entry.node? = d.nodes := by
  have hedges : d.entries.Pairwise fun x y => x.node? = none → y.node? = none := by
    simp [entries, List.pairwise_append, List.pairwise_map, Entry.node?, List.pairwise_of_forall]
  rw [h, List.pairwise_append, List.pairwise_cons] at hedges
  have hafter : after.filterMap Entry.node? = [] :=
    List.filterMap_eq_nil_iff.mpr fun x hx => hedges.2.1.1 x hx rfl
  have hnodes : d.entries.filterMap Entry.node? = d.nodes := filterMap_node_entries
  rwa [h, List.filterMap_append, List.filterMap_cons_none rfl, hafter, List.append_nil] at hnodes

structure Holding (d : GraphDocument) (before : List Entry) (g : Graph) : Prop where
  id : g.id = d.id
  directed : g.directed = d.directed
  attributes : g.attributes = d.attributes
  nodes : g.nodes = before.filterMap Entry.node?
  edges : g.edges = before.filterMap Entry.edge?
  indexed : g.Indexed

namespace Holding

variable {before after : List Entry} {entry : Entry} {g g' : Graph}

theorem blank (d : GraphDocument) : Holding d [] d.blank where
  id := rfl
  directed := rfl
  attributes := rfl
  nodes := rfl
  edges := rfl
  indexed := Graph.indexed_empty ..

theorem taken_iff (h : Holding d before g) (x : String) :
    g.slot? x ≠ none ↔ x ∈ d.id :: before.map Entry.id := by
  rw [Ne, h.indexed.slot_eq_none_iff, not_not, Graph.ids, h.id, h.nodes, h.edges,
    List.mem_cons, List.mem_cons, List.mem_append, Entry.mem_ids]

theorem fresh_iff (h : Holding d before g) (x : String) :
    g.slot? x = none ↔ x ∉ d.id :: before.map Entry.id := by
  rw [← h.taken_iff, Ne, not_not]

theorem node_iff {e : Edge} (h : Holding d before g)
    (hsplit : d.entries = before ++ .edge e :: after) (x : String) :
    (∃ i, g.slot? x = some (.node i)) ↔ x ∈ d.nodes.map Node.id := by
  rw [← filterMap_node_before hsplit, ← h.nodes]
  simp only [h.indexed.slot_iff, Graph.idAt?_node, List.mem_iff_getElem?]

/-- What an operation finds wrong is what is wrong with the element. -/
theorem fault_iff (h : Holding d before g) (hsplit : d.entries = before ++ entry :: after)
    (e : GraphError) : entry.operation.Fault g e ↔ d.Offends before entry e := by
  cases entry with
  | node n =>
    constructor
    · intro hfault
      cases hfault with
      | node taken => exact .duplicate ((h.taken_iff _).mp taken)
    · intro hoffends
      cases hoffends with
      | duplicate taken => exact .node ((h.taken_iff _).mpr taken)
  | edge edge =>
    have hnode := h.node_iff hsplit
    constructor
    · intro hfault
      cases hfault with
      | edge taken => exact .duplicate ((h.taken_iff _).mp taken)
      | source fresh source => exact .source ((h.fresh_iff _).mp fresh) (mt (hnode _).mpr source)
      | target fresh source target =>
        exact .target ((h.fresh_iff _).mp fresh) ((hnode _).mp source) (mt (hnode _).mpr target)
    · intro hoffends
      cases hoffends with
      | duplicate taken => exact .edge ((h.taken_iff _).mpr taken)
      | source fresh source => exact .source ((h.fresh_iff _).mpr fresh) (mt (hnode _).mp source)
      | target fresh source target =>
        exact .target ((h.fresh_iff _).mpr fresh) ((hnode _).mpr source) (mt (hnode _).mp target)

theorem effect (h : Holding d before g) (heffect : entry.operation.Effect g g') :
    Holding d (before ++ [entry]) g' := by
  have hindexed := heffect.indexed h.indexed
  cases entry with
  | node n =>
    cases heffect with
    | node fresh =>
      exact ⟨h.id, h.directed, h.attributes, by simp [Graph.withNode, h.nodes, Entry.node?],
        by simp [Graph.withNode, h.edges, Entry.edge?], hindexed⟩
  | edge e =>
    cases heffect with
    | edge fresh ends =>
      exact ⟨h.id, h.directed, h.attributes, by simp [Graph.withEdge, h.nodes, Entry.node?],
        by simp [Graph.withEdge, h.edges, Entry.edge?], hindexed⟩

end Holding

theorem sound_nil : d.Sound [] := by
  intro before entry after e h
  simp at h

theorem Sound.concat {before : List Entry} {entry : Entry} (h : d.Sound before)
    (hentry : ∀ e, ¬ d.Offends before entry e) : d.Sound (before ++ [entry]) := by
  intro first x last e hsplit
  rcases List.eq_nil_or_concat last with rfl | ⟨last, y, rfl⟩
  · obtain ⟨rfl, hx⟩ := List.append_inj' hsplit rfl
    obtain rfl : entry = x := List.singleton_inj.mp hx
    exact hentry e
  · rw [List.concat_eq_append, ← List.cons_append, ← List.append_assoc] at hsplit
    obtain ⟨rfl, _⟩ := List.append_inj' hsplit rfl
    exact h first x last e rfl

theorem FirstOffence.append (h : d.FirstOffence entries e) (more : List Entry) :
    d.FirstOffence (entries ++ more) e := by
  obtain ⟨before, entry, after, rfl, hsound, hoffends⟩ := h
  exact ⟨before, entry, after ++ more, by simp, hsound, hoffends⟩

theorem FirstOffence.not_sound (h : d.FirstOffence entries e) : ¬ d.Sound entries := by
  obtain ⟨before, entry, after, hsplit, _, hoffends⟩ := h
  exact fun hsound => hsound before entry after e hsplit hoffends

theorem Offends.unique {before : List Entry} {entry : Entry} (h : d.Offends before entry e)
    (h' : d.Offends before entry e') : e = e' := by
  cases h <;> cases h' <;> first | rfl | contradiction

theorem Sound.length_le {before before' after rest : List Entry} {entry : Entry}
    (h : d.Sound before') (hoffends : d.Offends before entry e)
    (hsplit : before ++ entry :: after = before' ++ rest) : before'.length ≤ before.length := by
  by_contra hlt
  have hfirst : before ++ [entry] <+: before ++ entry :: after := ⟨after, by simp⟩
  have hprefix : before ++ [entry] <+: before' :=
    List.prefix_of_prefix_length_le (hsplit ▸ hfirst) (List.prefix_append before' rest)
      (by simp; omega)
  obtain ⟨last, rfl⟩ := hprefix
  exact h before entry last e (by simp) hoffends

theorem FirstOffence.unique (h : d.FirstOffence entries e) (h' : d.FirstOffence entries e') :
    e = e' := by
  obtain ⟨before, entry, after, rfl, hsound, hoffends⟩ := h
  obtain ⟨before', entry', after', hsplit, hsound', hoffends'⟩ := h'
  have hlength : before.length = before'.length :=
    Nat.le_antisymm (hsound.length_le hoffends' hsplit.symm) (hsound'.length_le hoffends hsplit)
  obtain ⟨rfl, hrest⟩ := List.append_inj hsplit hlength
  obtain rfl := (List.cons.inj hrest).1
  exact hoffends.unique hoffends'

/-- Loading some of the first elements succeeds and gives what they list, or fails by the first of
them that offends. -/
theorem load_outcome {before after : List Entry} (hsplit : d.entries = before ++ after) :
    (∃ g, d.load before = .ok g ∧ Holding d before g ∧ d.Sound before) ∨
      ∃ e, d.load before = .error e ∧ d.FirstOffence before e := by
  -- whether an element offends depends on all those before it, so the last one is split off
  induction before using List.reverseRecOn generalizing after with
  | nil => exact .inl ⟨d.blank, rfl, .blank d, sound_nil⟩
  | append_singleton before entry ih =>
    rw [List.append_assoc] at hsplit
    rcases ih hsplit with ⟨g, hload, hholding, hsound⟩ | ⟨e, hload, hfirst⟩
    · have hnext : d.load (before ++ [entry]) = g.edited entry.operation.edit := by
        rw [load_concat, hload]; rfl
      rw [hnext, Graph.edited]
      rcases entry.operation.edit_outcome g with ⟨e, hfail, hfault⟩ | ⟨g', hdone, heffect⟩
      · rw [hfail]
        exact .inr ⟨e, rfl, before, entry, [], rfl, hsound, (hholding.fault_iff hsplit e).mp hfault⟩
      · rw [hdone]
        refine .inl ⟨g', rfl, hholding.effect heffect, hsound.concat fun e he => ?_⟩
        exact heffect.not_fault e ((hholding.fault_iff hsplit e).mpr he)
    · rw [load_concat, hload]
      exact .inr ⟨e, rfl, hfirst.append [entry]⟩

theorem toGraph_outcome (d : GraphDocument) :
    (∃ g, d.toGraph = .ok g ∧ Holding d d.entries g ∧ d.Sound d.entries) ∨
      ∃ e, d.toGraph = .error e ∧ d.FirstOffence d.entries e := by
  rw [toGraph_eq_load]
  exact load_outcome (List.append_nil d.entries).symm

theorem toGraph_eq_error_iff : d.toGraph = .error e ↔ d.FirstOffence d.entries e := by
  rcases d.toGraph_outcome with ⟨g, hload, _, hsound⟩ | ⟨e', hload, hfirst⟩
  · rw [hload]
    constructor
    · intro h
      cases h
    · intro h
      exact absurd hsound h.not_sound
  · rw [hload]
    constructor
    · intro h
      exact Except.error.inj h ▸ hfirst
    · intro h
      rw [hfirst.unique h]

theorem ends_namedEdges_iff {nodes : List String} :
    (∀ e ∈ d.namedEdges, e.source ∈ nodes ∧ e.target ∈ nodes) ↔ ∀ e ∈ d.edges, e.source ∈ nodes ∧
      e.target ∈ nodes := by
  constructor
  · intro h e he
    obtain ⟨i, hi, rfl⟩ := List.mem_iff_getElem.mp he
    exact h (d.edges[i].toEdge i) (List.mem_mapIdx.mpr ⟨i, hi, rfl⟩)
  · intro h e he
    obtain ⟨i, hi, rfl⟩ := List.mem_mapIdx.mp he
    exact h d.edges[i] (List.getElem_mem hi)

theorem not_firstOffence (hids : d.ids.Nodup)
    (hends : ∀ e ∈ d.edges, e.source ∈ d.nodes.map Node.id ∧ e.target ∈ d.nodes.map Node.id)
    (e : GraphError) : ¬ d.FirstOffence d.entries e := by
  rintro ⟨before, entry, after, hsplit, _, hoffends⟩
  have hmem : entry ∈ d.entries := by simp [hsplit]
  rw [← ends_namedEdges_iff] at hends
  cases hoffends with
  | duplicate taken =>
    rw [ids, ← map_id_entries, hsplit, List.map_append, ← List.cons_append,
      List.nodup_append] at hids
    exact hids.2.2 _ taken _ (by simp) rfl
  | source _ source => exact source (hends _ (by simpa [entries] using hmem)).1
  | target _ _ target => exact target (hends _ (by simpa [entries] using hmem)).2

/-- A document gives a graph if and only if the ids of the graph, its nodes and its edges are
distinct, where an edge without an id is named after its position, and edges are between nodes. The
graph has the id, the direction and the attributes of the document, and its nodes and edges in their
order with their attributes. Otherwise the error is that of the first element that offends, nodes
before edges: a taken id, or else a source that is no node, or else such a target. -/
theorem toGraph_exact (d : GraphDocument) :
    ((∃ g, d.toGraph = .ok g) ↔ d.ids.Nodup ∧
      ∀ e ∈ d.edges, e.source ∈ d.nodes.map Node.id ∧ e.target ∈ d.nodes.map Node.id) ∧
    (∀ g, d.toGraph = .ok g → g.Built ∧ g.id = d.id ∧ g.directed = d.directed ∧
      g.attributes = d.attributes ∧ g.nodes = d.nodes ∧ g.edges = d.namedEdges) ∧
    ∀ e, d.toGraph = .error e ↔ d.FirstOffence d.entries e := by
  have hloaded : ∀ g, d.toGraph = .ok g → Holding d d.entries g := by
    intro g hg
    rcases d.toGraph_outcome with ⟨g', hg', hholding, _⟩ | ⟨e, herror, _⟩
    · obtain rfl : g' = g := Except.ok.inj (hg'.symm.trans hg)
      exact hholding
    · cases herror.symm.trans hg
  refine ⟨⟨?_, ?_⟩, fun g hg => ?_, fun e => toGraph_eq_error_iff⟩
  · rintro ⟨g, hg⟩
    obtain ⟨hid, _, _, hnodes, hedges, hindexed⟩ := hloaded g hg
    rw [filterMap_node_entries] at hnodes
    rw [filterMap_edge_entries] at hedges
    have hids := hindexed.nodup_ids
    have hends := hindexed.ends
    rw [Graph.ids, hid, hnodes, hedges] at hids
    rw [hnodes, hedges, ends_namedEdges_iff] at hends
    exact ⟨hids, hends⟩
  · rintro ⟨hids, hends⟩
    rcases d.toGraph_outcome with ⟨g, hg, _⟩ | ⟨e, _, hfirst⟩
    · exact ⟨g, hg⟩
    · exact absurd hfirst (not_firstOffence hids hends e)
  · obtain ⟨hid, hdirected, hattributes, hnodes, hedges, _⟩ := hloaded g hg
    exact ⟨built_of_toGraph hg, hid, hdirected, hattributes, hnodes.trans filterMap_node_entries,
      hedges.trans filterMap_edge_entries⟩

def mixedDocument : GraphDocument where
  id := "net"
  directed := false
  nodes := [⟨"a", []⟩, ⟨"b", [("label", .text "wolf")]⟩]
  edges := [⟨none, "a", "b", [("weight", .int 3)]⟩, ⟨some "e1", "b", "b", []⟩, ⟨none, "b", "a", []⟩]

/-- The second edge has no id and the first edge has the one that it is given; its target is no node
either. -/
def clashingDocument : GraphDocument where
  nodes := [⟨"a", []⟩]
  edges := [⟨some "e1", "a", "a", []⟩, ⟨none, "a", "e1", []⟩, ⟨none, "graph", "a", []⟩]

theorem toGraph_exact_mixed :
    (∃ g, mixedDocument.toGraph = .ok g ∧ g.nodes = mixedDocument.nodes ∧
      g.edges.map Edge.id = ["e0", "e1", "e2"] ∧ g.edges = mixedDocument.namedEdges) ∧
    clashingDocument.FirstOffence clashingDocument.entries (.duplicateId "e1") := by
  obtain ⟨hok, hgraph, _⟩ := toGraph_exact mixedDocument
  obtain ⟨g, hg⟩ := hok.mpr (by decide)
  obtain ⟨_, _, _, _, hnodes, hedges⟩ := hgraph g hg
  refine ⟨⟨g, hg, hnodes, ?_, hedges⟩, ((toGraph_exact clashingDocument).2.2 _).mp (by decide)⟩
  rw [hedges]
  decide

end GraphDocument

end GraphRules
