import GraphRules.Graph.Document
import Mathlib.Data.List.Nodup

/-! Graphs that edits build. The index is kept in step with the lists of elements: an id has a slot
exactly if the element in that slot has the id. So no two elements share an id, and lookups are
exact. -/
namespace GraphRules

theorem lookup_cons_eq_ite {α : Type} (l : List (String × α)) (k : String) (a : α) (x : String) :
    ((k, a) :: l).lookup x = if x = k then some a else l.lookup x := by
  by_cases hx : x = k
  · simp [hx]
  · rw [List.lookup_cons, beq_eq_false_iff_ne.mpr hx, if_neg hx]

theorem map_getElem?_modify {α β : Type} (f : α → β) (k : α → α) (l : List α) (i j : Nat) :
    (l.modify i k)[j]?.map f = l[j]?.map fun a => if j = i then f (k a) else f a := by
  by_cases hij : j = i
  · simp [hij, Function.comp_def]
  · simp [hij, Ne.symm hij]

theorem map_modify_eq {α β : Type} {f : α → β} {k : α → α} (hk : ∀ a, f (k a) = f a) (l : List α)
    (i : Nat) : (l.modify i k).map f = l.map f := by
  refine List.ext_getElem? fun j => ?_
  simp only [List.getElem?_map, map_getElem?_modify, hk, ite_self]

theorem Attributes.lookup_set (as : Attributes) (name : String) (value : Attribute) (x : String) :
    (as.set name value).lookup x = if x = name then some value else as.lookup x := by
  induction as with
  | nil => exact lookup_cons_eq_ite [] name value x
  | cons p as ih =>
    obtain ⟨n, v⟩ := p
    unfold set
    split_ifs with hn <;> grind [lookup_cons_eq_ite]

namespace Graph

def ids (g : Graph) : List String := g.id :: (g.nodes.map Node.id ++ g.edges.map Edge.id)

def idAt? (g : Graph) (s : Slot) : Option String := (g.element? s).map Element.id

@[simp] theorem idAt?_graph (g : Graph) : g.idAt? .graph = some g.id := rfl

@[simp] theorem idAt?_node (g : Graph) (i : Nat) :
    g.idAt? (.node i) = (g.nodes.map Node.id)[i]? := by
  simp [idAt?, element?, Function.comp_def, Element.id]

@[simp] theorem idAt?_edge (g : Graph) (i : Nat) :
    g.idAt? (.edge i) = (g.edges.map Edge.id)[i]? := by
  simp [idAt?, element?, Function.comp_def, Element.id]

theorem attributes_node (g : Graph) (i : Nat) :
    (g.element? (.node i)).map Element.attributes = g.nodes[i]?.map Node.attributes := by
  simp [element?, Function.comp_def, Element.attributes]

theorem attributes_edge (g : Graph) (i : Nat) :
    (g.element? (.edge i)).map Element.attributes = g.edges[i]?.map Edge.attributes := by
  simp [element?, Function.comp_def, Element.attributes]

theorem mem_ids {g : Graph} {x : String} : x ∈ g.ids ↔ ∃ s, g.idAt? s = some x := by
  rw [ids, List.mem_cons, List.mem_append, List.mem_iff_getElem?, List.mem_iff_getElem?]
  constructor
  · rintro (rfl | ⟨i, hi⟩ | ⟨i, hi⟩)
    · exact ⟨.graph, rfl⟩
    · exact ⟨.node i, by rw [idAt?_node, hi]⟩
    · exact ⟨.edge i, by rw [idAt?_edge, hi]⟩
  · rintro ⟨s, hs⟩
    cases s with
    | graph => exact .inl (Option.some.inj hs).symm
    | node i => exact .inr (.inl ⟨i, by rwa [idAt?_node] at hs⟩)
    | edge i => exact .inr (.inr ⟨i, by rwa [idAt?_edge] at hs⟩)

def withNode (g : Graph) (n : Node) : Graph :=
  { g with index := (n.id, .node g.nodes.length) :: g.index, nodes := g.nodes ++ [n] }

def withEdge (g : Graph) (e : Edge) : Graph :=
  { g with index := (e.id, .edge g.edges.length) :: g.index, edges := g.edges ++ [e] }

def withAttribute (g : Graph) (name : String) (value : Attribute) : Slot → Graph
  | .graph => { g with attributes := g.attributes.set name value }
  | .node i => { g with nodes := g.nodes.modify i fun n =>
    { n with attributes := n.attributes.set name value } }
  | .edge i => { g with edges := g.edges.modify i fun e =>
    { e with attributes := e.attributes.set name value } }

inductive Operation where
  | addNode (n : Node)
  | addEdge (e : Edge)
  | setAttribute (id name : String) (value : Attribute)
  deriving DecidableEq, Inhabited

def Operation.edit : Operation → Edit Unit
  | .addNode n => .addNode n
  | .addEdge e => .addEdge e
  | .setAttribute id name value => .setAttribute id name value

inductive Operation.Effect (g : Graph) : Operation → Graph → Prop
  | node {n : Node} (fresh : g.slot? n.id = none) : Effect g (.addNode n) (g.withNode n)
  | edge {e : Edge} (fresh : g.slot? e.id = none)
    (ends : ∀ x ∈ [e.source, e.target], ∃ i, g.slot? x = some (.node i)) :
    Effect g (.addEdge e) (g.withEdge e)
  | set {id name : String} {value : Attribute} {s : Slot} (found : g.slot? id = some s) :
      Effect g (.setAttribute id name value) (g.withAttribute name value s)

inductive Operation.Fault (g : Graph) : Operation → GraphError → Prop
  | node {n : Node} (taken : g.slot? n.id ≠ none) : Fault g (.addNode n) (.duplicateId n.id)
  | edge {e : Edge} (taken : g.slot? e.id ≠ none) : Fault g (.addEdge e) (.duplicateId e.id)
  | source {e : Edge} (fresh : g.slot? e.id = none)
    (source : ¬ ∃ i, g.slot? e.source = some (.node i)) :
    Fault g (.addEdge e) (.unknownEndpoint e.id e.source)
  | target {e : Edge} (fresh : g.slot? e.id = none)
    (source : ∃ i, g.slot? e.source = some (.node i))
    (target : ¬ ∃ i, g.slot? e.target = some (.node i)) :
    Fault g (.addEdge e) (.unknownEndpoint e.id e.target)
  | set {id name : String} {value : Attribute} (missing : g.slot? id = none) :
      Fault g (.setAttribute id name value) (.unknownElement id)

section Edits

variable {α β : Type} {g g' : Graph} {m : Edit α}

theorem edit_bind_of_ok {a : α} (h : g.edit m = (.ok a, g')) (k : α → Edit β) :
    g.edit (m >>= k) = g'.edit (k a) := by
  unfold edit at h ⊢
  simp only [ExceptT.run_bind, StateT.run_bind, Id.run_bind, h]

theorem edit_bind_of_error {e : GraphError} (h : g.edit m = (.error e, g')) (k : α → Edit β) :
    g.edit (m >>= k) = (.error e, g') := by
  unfold edit at h ⊢
  simp only [ExceptT.run_bind, StateT.run_bind, Id.run_bind, h]
  rfl

theorem edit_get (g : Graph) : g.edit get = (.ok g, g) := rfl

theorem edit_modify (g : Graph) (f : Graph → Graph) : g.edit (modify f) = (.ok (), f g) := rfl

theorem edit_requireFresh (g : Graph) (id : String) :
    g.slot? id ≠ none ∧ g.edit (.requireFresh id) = (.error (.duplicateId id), g) ∨
      g.slot? id = none ∧ g.edit (.requireFresh id) = (.ok (), g) := by
  rw [Edit.requireFresh, edit_bind_of_ok (edit_get g)]
  cases hslot : g.slot? id with
  | none => exact .inr ⟨rfl, rfl⟩
  | some s => exact .inl ⟨by simp, rfl⟩

theorem edit_requireNode (g : Graph) (edge node : String) :
    (¬ ∃ i, g.slot? node = some (.node i)) ∧
        g.edit (.requireNode edge node) = (.error (.unknownEndpoint edge node), g) ∨
      (∃ i, g.slot? node = some (.node i)) ∧ g.edit (.requireNode edge node) = (.ok (), g) := by
  rw [Edit.requireNode, edit_bind_of_ok (edit_get g)]
  rcases hslot : g.slot? node with _ | _ | i | i
  · exact .inl ⟨by simp, rfl⟩
  · exact .inl ⟨by simp, rfl⟩
  · exact .inr ⟨⟨i, rfl⟩, rfl⟩
  · exact .inl ⟨by simp, rfl⟩

/-- An operation finds a fault and leaves the graph as it was, or does all that it should. -/
theorem Operation.edit_outcome (o : Operation) (g : Graph) :
    (∃ e, g.edit o.edit = (.error e, g) ∧ o.Fault g e) ∨ ∃ g', g.edit o.edit = (.ok (), g') ∧
      o.Effect g g' := by
  cases o with
  | addNode n =>
    rcases edit_requireFresh g n.id with ⟨htaken, hfail⟩ | ⟨hfresh, hok⟩
    · exact .inl ⟨_, edit_bind_of_error hfail _, .node htaken⟩
    · refine .inr ⟨g.withNode n, ?_, .node hfresh⟩
      rw [edit, Edit.addNode, edit_bind_of_ok hok, edit_bind_of_ok (edit_modify _ _), edit_modify]
      rfl
  | addEdge e =>
    rcases edit_requireFresh g e.id with ⟨htaken, hfail⟩ | ⟨hfresh, hok⟩
    · exact .inl ⟨_, edit_bind_of_error hfail _, .edge htaken⟩
    rw [edit, Edit.addEdge, edit_bind_of_ok hok]
    rcases edit_requireNode g e.id e.source with ⟨hno, hfail⟩ | ⟨hsource, hok⟩
    · exact .inl ⟨_, edit_bind_of_error hfail _, .source hfresh hno⟩
    rw [edit_bind_of_ok hok]
    rcases edit_requireNode g e.id e.target with ⟨hno, hfail⟩ | ⟨htarget, hok⟩
    · exact .inl ⟨_, edit_bind_of_error hfail _, .target hfresh hsource hno⟩
    rw [edit_bind_of_ok hok, edit_bind_of_ok (edit_modify _ _), edit_modify]
    exact .inr ⟨g.withEdge e, rfl, .edge hfresh (by simp [hsource, htarget])⟩
  | setAttribute id name value =>
    rw [edit, Edit.setAttribute, edit_bind_of_ok (edit_get g)]
    rcases hslot : g.slot? id with _ | s
    · exact .inl ⟨_, rfl, .set hslot⟩
    · refine .inr ⟨g.withAttribute name value s, ?_, .set hslot⟩
      cases s <;> rfl

theorem Operation.edit_cases (o : Operation) (g : Graph) :
    (∃ e, g.edit o.edit = (.error e, g)) ∨ ∃ g', g.edit o.edit = (.ok (), g') ∧ o.Effect g g' := by
  rcases o.edit_outcome g with ⟨e, hfail, _⟩ | hdone
  · exact .inl ⟨e, hfail⟩
  · exact .inr hdone

theorem Operation.Effect.not_fault {o : Operation} (h : o.Effect g g') (e : GraphError) :
    ¬ o.Fault g e := by
  intro hfault
  cases h with
  | node fresh =>
    cases hfault with
    | node taken => exact taken fresh
  | edge fresh ends =>
    cases hfault with
    | edge taken => exact taken fresh
    | source _ source => exact source (ends _ (by simp))
    | target _ _ target => exact target (ends _ (by simp))
  | set found =>
    cases hfault with
    | set missing => simp [found] at missing

end Edits

/-- The index leads to each element by its id, and edges have nodes at their ends. -/
structure Indexed (g : Graph) : Prop where
  slot_iff : ∀ x s, g.slot? x = some s ↔ g.idAt? s = some x
  nodup_keys : (g.index.map Prod.fst).Nodup
  ends : ∀ e ∈ g.edges, e.source ∈ g.nodes.map Node.id ∧ e.target ∈ g.nodes.map Node.id

namespace Indexed

variable {g g' : Graph} {x : String} {s : Slot}

theorem mem_ids_iff (h : g.Indexed) : x ∈ g.ids ↔ ∃ s, g.slot? x = some s := by
  simp only [mem_ids, h.slot_iff]

theorem slot_eq_none_iff (h : g.Indexed) : g.slot? x = none ↔ x ∉ g.ids := by
  rw [h.mem_ids_iff, Option.eq_none_iff_forall_ne_some, not_exists]

theorem slot_inj (h : g.Indexed) {t : Slot} (hs : g.idAt? s = some x) (ht : g.idAt? t = some x) :
    s = t := by
  rw [← h.slot_iff] at hs ht
  exact Option.some.inj (hs.symm.trans ht)

theorem nodup_ids (h : g.Indexed) : g.ids.Nodup := by
  have hnodup : ∀ (l : List String) (f : Nat → Slot), (∀ i, g.idAt? (f i) = l[i]?) →
      Function.Injective f → l.Nodup := by
    intro l f hf hinj
    rw [List.nodup_iff_getElem?_ne_getElem?]
    intro i j hij hj heq
    have hjth : l[j]? = some l[j] := List.getElem?_eq_getElem hj
    have hsame := h.slot_inj (s := f i) (t := f j) (by rw [hf, heq, hjth]) (by rw [hf, hjth])
    exact Nat.ne_of_lt hij (hinj hsame)
  have hapart : ∀ {s t : Slot} {x y : String}, g.idAt? s = some x →
      g.idAt? t = some y → s ≠ t → x ≠ y := by
    rintro s t x _ hs ht hne rfl
    exact hne (h.slot_inj hs ht)
  rw [ids, List.nodup_cons, List.nodup_append, List.mem_append,
    List.mem_iff_getElem?, List.mem_iff_getElem?]
  refine ⟨?_, hnodup _ .node g.idAt?_node fun i j hij => Slot.node.inj hij,
    hnodup _ .edge g.idAt?_edge fun i j hij => Slot.edge.inj hij, ?_⟩
  · rintro (⟨i, hi⟩ | ⟨i, hi⟩)
    · rw [← idAt?_node] at hi
      exact hapart g.idAt?_graph hi (by simp) rfl
    · rw [← idAt?_edge] at hi
      exact hapart g.idAt?_graph hi (by simp) rfl
  · intro x hx y hy
    obtain ⟨i, hi⟩ := List.mem_iff_getElem?.mp hx
    obtain ⟨j, hj⟩ := List.mem_iff_getElem?.mp hy
    rw [← idAt?_node] at hi
    rw [← idAt?_edge] at hj
    exact hapart hi hj (by simp)

theorem find?_of_idAt (h : g.Indexed) (hs : g.idAt? s = some x) : g.find? x = g.element? s := by
  rw [find?, (h.slot_iff x s).mpr hs, Option.bind_some]

theorem find?_id (h : g.Indexed) : g.find? g.id = some (.graph g) :=
  h.find?_of_idAt (s := .graph) rfl

theorem find?_node (h : g.Indexed) {n : Node} (hn : n ∈ g.nodes) :
    g.find? n.id = some (.node n) := by
  obtain ⟨i, hi⟩ := List.mem_iff_getElem?.mp hn
  rw [h.find?_of_idAt (s := .node i) (by simp [hi]), element?, hi, Option.map_some]

theorem find?_edge (h : g.Indexed) {e : Edge} (he : e ∈ g.edges) :
    g.find? e.id = some (.edge e) := by
  obtain ⟨i, hi⟩ := List.mem_iff_getElem?.mp he
  rw [h.find?_of_idAt (s := .edge i) (by simp [hi]), element?, hi, Option.map_some]

theorem find?_eq_none (h : g.Indexed) (hx : x ∉ g.ids) : g.find? x = none := by
  rw [find?, h.slot_eq_none_iff.mpr hx, Option.bind_none]

theorem mem_keys_iff (h : g.Indexed) : x ∈ g.index.map Prod.fst ↔ x ∈ g.ids := by
  have hlookup : ∀ l : Index, x ∈ l.map Prod.fst ↔ l.lookup x ≠ none := by
    intro l
    induction l with
    | nil => simp
    | cons p l ih =>
      obtain ⟨k, s⟩ := p
      rw [List.map_cons, List.mem_cons, ih, lookup_cons_eq_ite]
      split_ifs with hx <;> simp [hx]
  rw [hlookup, ← not_iff_not, not_not, ← h.slot_eq_none_iff]
  rfl

theorem slot_iff_of_fresh (h : g.Indexed) (hx : g.slot? x = none) (hs : g.idAt? s = none)
    (hslot : ∀ y, g'.slot? y = if y = x then some s else g.slot? y)
    (hid : ∀ t, g'.idAt? t = if t = s then some x else g.idAt? t) (y : String) (t : Slot) :
    g'.slot? y = some t ↔ g'.idAt? t = some y := by
  rw [hslot, hid]
  split_ifs with hy ht ht
  · simp [hy, ht]
  · rw [← h.slot_iff, hy, hx]
    simpa using Ne.symm ht
  · rw [h.slot_iff, ht, hs]
    simpa using Ne.symm hy
  · exact h.slot_iff y t

theorem not_mem_keys (h : g.Indexed) (hx : g.slot? x = none) : x ∉ g.index.map Prod.fst := by
  rwa [h.mem_keys_iff, ← h.slot_eq_none_iff]

theorem withNode (h : g.Indexed) {n : Node} (hfresh : g.slot? n.id = none) :
    (g.withNode n).Indexed where
  slot_iff := by
    refine h.slot_iff_of_fresh hfresh (s := .node g.nodes.length) (by simp)
      (lookup_cons_eq_ite _ _ _) fun t => ?_
    cases t with
    | graph => rfl
    | edge i => simp [Graph.withNode]
    | node i =>
      simp only [idAt?_node, Graph.withNode, List.map_append, List.getElem?_append,
        Slot.node.injEq, List.length_map]
      grind
  nodup_keys := List.nodup_cons.mpr ⟨h.not_mem_keys hfresh, h.nodup_keys⟩
  ends e he := by
    have hends := h.ends e he
    simp only [Graph.withNode, List.map_append]
    exact ⟨List.mem_append_left _ hends.1, List.mem_append_left _ hends.2⟩

theorem withEdge (h : g.Indexed) {e : Edge} (hfresh : g.slot? e.id = none)
    (hends : ∀ x ∈ [e.source, e.target], ∃ i, g.slot? x = some (.node i)) :
    (g.withEdge e).Indexed where
  slot_iff := by
    refine h.slot_iff_of_fresh hfresh (s := .edge g.edges.length) (by simp)
      (lookup_cons_eq_ite _ _ _) fun t => ?_
    cases t with
    | graph => rfl
    | node i => simp [Graph.withEdge]
    | edge i =>
      simp only [idAt?_edge, Graph.withEdge, List.map_append, List.getElem?_append,
        Slot.edge.injEq, List.length_map]
      grind
  nodup_keys := List.nodup_cons.mpr ⟨h.not_mem_keys hfresh, h.nodup_keys⟩
  ends e' he' := by
    have hnode : ∀ x ∈ [e.source, e.target], x ∈ g.nodes.map Node.id := by
      intro x hx
      obtain ⟨i, hi⟩ := hends x hx
      rw [h.slot_iff, idAt?_node] at hi
      exact List.mem_of_getElem? hi
    rcases List.mem_append.mp he' with he' | he'
    · exact h.ends e' he'
    · rw [List.mem_singleton] at he'
      subst he'
      exact ⟨hnode _ (by simp), hnode _ (by simp)⟩

end Indexed

section Attributes

variable (g : Graph) (name : String) (value : Attribute) (s : Slot)

theorem index_withAttribute : (g.withAttribute name value s).index = g.index := by cases s <;> rfl

theorem id_withAttribute : (g.withAttribute name value s).id = g.id := by cases s <;> rfl

theorem directed_withAttribute :
    (g.withAttribute name value s).directed = g.directed := by cases s <;> rfl

theorem nodes_withAttribute :
    (g.withAttribute name value s).nodes.map Node.id = g.nodes.map Node.id := by
  cases s with
  | graph => rfl
  | node i => exact map_modify_eq (fun _ => by rfl) _ _
  | edge i => rfl

theorem edges_withAttribute {β : Type} {f : Edge → β}
    (hf : ∀ e as, f { e with attributes := as } = f e) :
    (g.withAttribute name value s).edges.map f = g.edges.map f := by
  cases s with
  | graph => rfl
  | node i => rfl
  | edge i => exact map_modify_eq (fun _ => hf _ _) _ _

theorem idAt?_withAttribute (t : Slot) : (g.withAttribute name value s).idAt? t = g.idAt? t := by
  cases t with
  | graph => simp [id_withAttribute]
  | node i => simp only [idAt?_node, nodes_withAttribute]
  | edge i => rw [idAt?_edge, idAt?_edge, edges_withAttribute _ _ _ _ fun _ _ => rfl]

/-- Only the attributes of the element in the slot change. -/
theorem attributes_withAttribute (t : Slot) :
    ((g.withAttribute name value s).element? t).map Element.attributes =
      ((g.element? t).map Element.attributes).map fun as =>
        if t = s then as.set name value else as := by
  cases t with
  | graph => cases s <;> rfl
  | node j =>
    cases s <;> simp [attributes_node, withAttribute, map_getElem?_modify, Function.comp_def]
  | edge j =>
    cases s <;> simp [attributes_edge, withAttribute, map_getElem?_modify, Function.comp_def]

end Attributes

theorem Indexed.withAttribute {g : Graph} (h : g.Indexed) (name : String) (value : Attribute)
    (s : Slot) : (g.withAttribute name value s).Indexed where
  slot_iff x t := by rw [slot?, index_withAttribute, idAt?_withAttribute]; exact h.slot_iff x t
  nodup_keys := by rw [index_withAttribute]; exact h.nodup_keys
  ends e he := by
    have hmem := List.mem_map_of_mem (f := fun e => (e.source, e.target)) he
    rw [edges_withAttribute _ _ _ _ fun _ _ => rfl] at hmem
    obtain ⟨e', he', heq⟩ := List.mem_map.mp hmem
    obtain ⟨hsource, htarget⟩ := Prod.mk.inj heq
    rw [nodes_withAttribute, ← hsource, ← htarget]
    exact h.ends e' he'

theorem Operation.Effect.indexed {o : Operation} {g g' : Graph} (he : o.Effect g g')
    (h : g.Indexed) : g'.Indexed := by
  cases he with
  | node fresh => exact h.withNode fresh
  | edge fresh ends => exact h.withEdge fresh ends
  | set found => exact h.withAttribute _ _ _

def run (g : Graph) : List Operation → Graph
  | [] => g
  | o :: os => (g.edit o.edit).2.run os

theorem Indexed.run {g : Graph} (h : g.Indexed) (os : List Operation) : (g.run os).Indexed := by
  induction os generalizing g with
  | nil => exact h
  | cons o os ih =>
    rw [Graph.run]
    rcases o.edit_cases g with ⟨e, he⟩ | ⟨g', hg', heffect⟩
    · rw [he]
      exact ih h
    · rw [hg']
      exact ih (heffect.indexed h)

theorem indexed_empty (id : String) (directed : Bool) (attributes : Attributes) :
    Graph.Indexed { id, directed, attributes } where
  slot_iff x s := by
    rw [slot?, Index.ofElements, lookup_cons_eq_ite]
    cases s with
    | graph => simp [eq_comm]
    | node i => simp
    | edge i => simp
  nodup_keys := by simp [Index.ofElements]
  ends := by simp

/-- What becomes of a graph when an attribute of an element is set: all else stays as it was. -/
structure SetsOnly (g g' : Graph) (element name : String) (value : Attribute) : Prop where
  id : g'.id = g.id
  directed : g'.directed = g.directed
  index : g'.index = g.index
  nodes : g'.nodes.map Node.id = g.nodes.map Node.id
  edges : g'.edges.map (fun e => (e.id, e.source, e.target)) = g.edges.map fun e =>
    (e.id, e.source, e.target)
  attributes : ∀ x a, (g'.find? x).bind (·.attribute? a) =
    if x = element ∧ a = name then some value else (g.find? x).bind (·.attribute? a)

theorem attribute?_find? (g : Graph) (x a : String) : (g.find? x).bind (·.attribute? a) =
    (g.slot? x).bind fun t => ((g.element? t).map Element.attributes).bind (·.lookup a) := by
  rw [find?, Option.bind_assoc]
  refine congrArg _ (funext fun t => ?_)
  rw [Option.bind_map]
  rfl

theorem Indexed.setsOnly {g : Graph} (h : g.Indexed) {element name : String} {value : Attribute}
    {s : Slot} (hs : g.slot? element = some s) :
    g.SetsOnly (g.withAttribute name value s) element name value where
  id := id_withAttribute ..
  directed := directed_withAttribute ..
  index := index_withAttribute ..
  nodes := nodes_withAttribute ..
  edges := edges_withAttribute _ _ _ _ fun _ _ => rfl
  attributes x a := by
    have hslot : (g.withAttribute name value s).slot? x = g.slot? x := by
      rw [slot?, index_withAttribute, slot?]
    have hselement := (h.slot_iff element s).mp hs
    rw [attribute?_find?, attribute?_find?, hslot]
    cases hx : g.slot? x with
    | none =>
      have hne : x ≠ element := by
        rintro rfl
        rw [hs] at hx
        cases hx
      simp [hne]
    | some t =>
      rw [Option.bind_some, Option.bind_some, attributes_withAttribute]
      have hxt := (h.slot_iff x t).mp hx
      by_cases hts : t = s
      · obtain rfl : x = element := Option.some.inj (hxt.symm.trans (hts ▸ hselement))
        obtain ⟨e, he, _⟩ := Option.map_eq_some_iff.mp hxt
        simp [← hts, he, Attributes.lookup_set]
      · have hne : x ≠ element := fun e => hts (h.slot_inj hxt (e ▸ hselement))
        simp [hts, hne, Function.comp_def]

def Built (g : Graph) : Prop := ∃ id directed attributes os, g = run { id, directed, attributes } os

theorem Built.indexed {g : Graph} (h : g.Built) : g.Indexed := by
  obtain ⟨id, directed, attributes, os, rfl⟩ := h
  exact (indexed_empty id directed attributes).run os

/-- In a graph that operations build, whether they failed or not, no two elements share an id, edges
are between nodes, the index knows the ids and no others, and each id leads to its element. An
operation that fails changes nothing, and setting an attribute changes nothing else. -/
theorem Built.consistent {g : Graph} (h : g.Built) :
    g.ids.Nodup ∧
    (∀ e ∈ g.edges, e.source ∈ g.nodes.map Node.id ∧ e.target ∈ g.nodes.map Node.id) ∧
    ((g.index.map Prod.fst).Nodup ∧ ∀ x, x ∈ g.index.map Prod.fst ↔ x ∈ g.ids) ∧
    (g.find? g.id = some (.graph g) ∧ (∀ n ∈ g.nodes, g.find? n.id = some (.node n)) ∧
      (∀ e ∈ g.edges, g.find? e.id = some (.edge e)) ∧ ∀ x, x ∉ g.ids → g.find? x = none) ∧
    (∀ (o : Operation) e, (g.edit o.edit).1 = .error e → (g.edit o.edit).2 = g) ∧
    ∀ x name value, (g.edit (.setAttribute x name value)).1 = .ok () →
      x ∈ g.ids ∧ g.SetsOnly (g.edit (.setAttribute x name value)).2 x name value := by
  have hg := h.indexed
  refine ⟨hg.nodup_ids, hg.ends, ⟨hg.nodup_keys, fun x => hg.mem_keys_iff⟩,
    ⟨hg.find?_id, fun n hn => hg.find?_node hn, fun e he => hg.find?_edge he,
    fun x hx => hg.find?_eq_none hx⟩, ?_, ?_⟩
  · intro o e he
    rcases o.edit_cases g with ⟨e', hfail⟩ | ⟨g', hok, _⟩
    · rw [hfail]
    · rw [hok] at he
      cases he
  · intro x name value hok
    rcases (Operation.setAttribute x name value).edit_cases g with ⟨e, hfail⟩ | ⟨g', hg', heffect⟩
    · rw [Operation.edit] at hfail
      rw [hfail] at hok
      cases hok
    · rw [Operation.edit] at hg'
      rw [hg']
      cases heffect with
      | set found => exact ⟨hg.mem_ids_iff.mpr ⟨_, found⟩, hg.setsOnly found⟩

/-- Operations of which four fail: two want an id that is taken, one an end that is no node, one an
element that is not there. -/
def pairOperations : List Operation :=
  [.addNode ⟨"a", []⟩, .addNode ⟨"b", []⟩, .addNode ⟨"pair", []⟩,
    .addEdge ⟨"ab", "a", "b", []⟩, .addNode ⟨"ab", []⟩, .addEdge ⟨"loop", "ab", "ab", []⟩,
    .setAttribute "loop" "label" (.int 1), .addNode ⟨"c", []⟩,
    .setAttribute "a" "label" (.text "wolf")]

theorem Built.consistent_pair :
    ∃ g : Graph, g.Built ∧ g = run { id := "pair", directed := false } pairOperations ∧
    g.ids = ["pair", "a", "b", "c", "ab"] ∧ g.ids.Nodup ∧
    (∀ e ∈ g.edges, e.source ∈ g.nodes.map Node.id ∧ e.target ∈ g.nodes.map Node.id) ∧
    (∀ x, x ∈ g.index.map Prod.fst ↔ x ∈ g.ids) ∧
    g.find? "pair" = some (.graph g) ∧ g.find? "a" = some (.node ⟨"a", [("label", .text "wolf")]⟩) ∧
    g.find? "ab" = some (.edge ⟨"ab", "a", "b", []⟩) ∧ g.find? "loop" = none ∧
    (g.edit (.addEdge ⟨"bc", "b", "pair", []⟩)).2 = g ∧
    g.SetsOnly (g.edit (.setAttribute "ab" "label" (.int 3))).2 "ab" "label" (.int 3) := by
  obtain ⟨g, hg⟩ : ∃ g : Graph, g = run { id := "pair", directed := false } pairOperations :=
    ⟨_, rfl⟩
  have hbuilt : g.Built := ⟨"pair", false, [], pairOperations, hg⟩
  obtain ⟨hnodup, hends, ⟨_, hkeys⟩, ⟨hself, hnodes, hedges, hnone⟩, hfail, hset⟩ :=
    consistent hbuilt
  have hids : g.ids = ["pair", "a", "b", "c", "ab"] := by rw [hg]; decide
  have hid : g.id = "pair" := by rw [hg]; decide
  rw [hid] at hself
  refine ⟨g, hbuilt, hg, hids, hnodup, hends, hkeys, hself,
    hnodes ⟨"a", [("label", .text "wolf")]⟩ ?_, hedges ⟨"ab", "a", "b", []⟩ ?_,
    hnone "loop" (by rw [hids]; decide),
    hfail (.addEdge ⟨"bc", "b", "pair", []⟩) (.unknownEndpoint "bc" "pair") ?_,
    (hset "ab" "label" (.int 3) ?_).2⟩
  all_goals rw [hg]; decide

theorem run_append (g : Graph) (os os' : List Operation) :
    g.run (os ++ os') = (g.run os).run os' := by
  induction os generalizing g with
  | nil => rfl
  | cons o os ih => exact ih _

theorem Built.edited {g g' : Graph} (h : g.Built) (o : Operation) (he : g.edited o.edit = .ok g') :
    g'.Built := by
  obtain ⟨id, directed, attributes, os, rfl⟩ := h
  obtain ⟨g, hg⟩ : ∃ g, g = run { id, directed, attributes } os := ⟨_, rfl⟩
  refine ⟨id, directed, attributes, os ++ [o], ?_⟩
  rw [run_append, ← hg, run, run]
  rw [← hg] at he
  rcases o.edit_cases g with ⟨e, hfail⟩ | ⟨g'', hok, _⟩
  · rw [Graph.edited, hfail] at he
    cases he
  · rw [Graph.edited, hok] at he
    rw [hok]
    exact (Except.ok.inj he).symm

end Graph

namespace GraphDocument

theorem exists_of_bind_ok {α β : Type} {x : Except GraphError α} {f : α → Except GraphError β}
    {b : β} (h : (x >>= f) = .ok b) : ∃ a, x = .ok a ∧ f a = .ok b := by
  cases x with
  | error e => cases h
  | ok a => exact ⟨a, rfl, h⟩

variable {g g' : Graph}

theorem built_addNodes {ns : List Node} (h : g.Built) (hns : ns.foldlM Graph.addNode g = .ok g') :
    g'.Built := by
  induction ns generalizing g with
  | nil => exact Except.ok.inj hns ▸ h
  | cons n ns ih =>
    rw [List.foldlM_cons] at hns
    obtain ⟨g₁, hn, hns⟩ := exists_of_bind_ok hns
    exact ih (h.edited (.addNode n) hn) hns

theorem built_addEdges {ds : List EdgeDocument} {i : Nat} (h : g.Built)
    (hds : addEdges i ds g = .ok g') : g'.Built := by
  induction ds generalizing i g with
  | nil => exact Except.ok.inj hds ▸ h
  | cons d ds ih =>
    obtain ⟨g₁, hd, hds⟩ := exists_of_bind_ok hds
    exact ih (h.edited (.addEdge (d.toEdge i)) hd) hds

/-- Documents are read by the same operations. -/
theorem built_of_toGraph {d : GraphDocument} (h : d.toGraph = .ok g) : g.Built := by
  have hempty : Graph.Built { id := d.id, directed := d.directed, attributes := d.attributes } :=
    ⟨_, _, _, [], rfl⟩
  obtain ⟨g₁, hnodes, hedges⟩ := exists_of_bind_ok h
  exact built_addEdges (built_addNodes hempty hnodes) hedges

end GraphDocument

end GraphRules
