import GraphRules.Graph.Measure
import GraphRules.Proofs.GraphEdits
import GraphRules.Term.Basic
import Mathlib.Data.List.Perm.Subperm
import Mathlib.Data.Set.Card
import Mathlib.Logic.Relation

/-! Components of graphs. The search from an id works off a queue and ends with the ids that paths
lead to, whatever the direction of their edges. In a graph that operations build these are nodes, so
the size of a component and whether the graph is connected are what their names say. -/
namespace GraphRules.Graph

def Adjacent (g : Graph) (x y : String) : Prop :=
  ∃ e ∈ g.edges, e.source = x ∧ e.target = y ∨ e.source = y ∧ e.target = x

/-- A path of edges, each taken in either direction. -/
def Joined (g : Graph) : String → String → Prop := Relation.ReflTransGen g.Adjacent

def unseen (g : Graph) (seen : List String) (current : String) : List String :=
  ((g.neighbors current).filter fun id => id ∉ seen).eraseDups

/-- The search with the ids seen and the ids that wait ends with the ids in the last list. It takes
the ids from the queue one after the other, and puts their neighbors at its end that were not seen
before. -/
inductive Explores (g : Graph) : List String → List String → List String → Prop
  | done (seen : List String) : Explores g seen [] seen
  | visit {seen waiting result : List String} {current : String}
    (rest : Explores g (seen ++ g.unseen seen current) (waiting ++ g.unseen seen current) result) :
    Explores g seen (current :: waiting) result

section Paths

variable {g : Graph} {x y z : String}

theorem Adjacent.symm (h : g.Adjacent x y) : g.Adjacent y x := by
  obtain ⟨e, he, hends⟩ := h
  exact ⟨e, he, hends.symm⟩

theorem mem_neighbors : y ∈ g.neighbors x ↔ g.Adjacent x y := by
  simp only [neighbors, List.mem_filterMap, Adjacent]
  refine exists_congr fun e => and_congr_right fun _ => ?_
  split_ifs with hsource htarget <;> grind

theorem Joined.symm (h : g.Joined x y) : g.Joined y x := by
  induction h with
  | refl => exact .refl
  | tail _ hlast ih => exact .head hlast.symm ih

theorem Joined.trans (hxy : g.Joined x y) (hyz : g.Joined y z) :
    g.Joined x z := Relation.ReflTransGen.trans hxy hyz

/-- The ids that a path from one of them can come to: it stays there, or ends with an edge. -/
def ends (g : Graph) (start : String) : List String :=
  start :: (g.edges.map Edge.source ++ g.edges.map Edge.target)

theorem length_ends (g : Graph) (start : String) :
    (g.ends start).length = 2 * g.edges.length + 1 := by
  simp only [ends, List.length_cons, List.length_append, List.length_map]
  omega

theorem Joined.mem_ends (h : g.Joined x y) : y ∈ g.ends x := by
  cases h with
  | refl => exact List.mem_cons_self
  | tail _ hlast =>
    obtain ⟨e, he, hends⟩ := hlast
    refine List.mem_cons_of_mem _ (List.mem_append.mpr ?_)
    rcases hends with ⟨_, rfl⟩ | ⟨rfl, _⟩
    · exact .inr (List.mem_map_of_mem he)
    · exact .inl (List.mem_map_of_mem he)

end Paths

theorem mem_unseen {g : Graph} {seen : List String} {current x : String} :
    x ∈ g.unseen seen current ↔ g.Adjacent current x ∧ x ∉ seen := by
  simp [unseen, mem_neighbors]

/-- What holds whenever the search comes to the next id: the ids seen are those that were visited
and those that wait, each of them can be reached, and the neighbors of those visited were seen. -/
structure Frontier (g : Graph) (start : String) (visited waiting : List String) : Prop where
  nodup : (visited ++ waiting).Nodup
  start_mem : start ∈ visited ++ waiting
  joined : ∀ x ∈ visited ++ waiting, g.Joined start x
  closed : ∀ x ∈ visited, ∀ y, g.Adjacent x y → y ∈ visited ++ waiting

namespace Frontier

variable {g : Graph} {start current : String} {visited waiting : List String}

theorem init (g : Graph) (start : String) : Frontier g start [] [start] where
  nodup := List.nodup_singleton start
  start_mem := List.mem_singleton_self start
  joined x hx := by
    obtain rfl := List.mem_singleton.mp hx
    exact .refl
  closed := by simp

theorem visited_append (fresh : List String) :
    visited ++ [current] ++ (waiting ++ fresh) = (visited ++ current :: waiting) ++ fresh := by simp

theorem visit (h : Frontier g start visited (current :: waiting)) :
    Frontier g start (visited ++ [current])
      (waiting ++ g.unseen (visited ++ current :: waiting) current) where
  nodup := by
    rw [visited_append, List.nodup_append]
    refine ⟨h.nodup, nodup_eraseDups _, ?_⟩
    rintro x hx _ hx' rfl
    exact (mem_unseen.mp hx').2 hx
  start_mem := by
    rw [visited_append]
    exact List.mem_append_left _ h.start_mem
  joined := by
    have hcurrent : g.Joined start current := h.joined current (by simp)
    rw [visited_append]
    refine List.forall_mem_append.mpr ⟨h.joined, fun x hx => ?_⟩
    exact hcurrent.trans (.single (mem_unseen.mp hx).1)
  closed x hx y hxy := by
    rw [visited_append]
    rcases List.mem_append.mp hx with hx | hx
    · exact List.mem_append_left _ (h.closed x hx y hxy)
    · obtain rfl := List.mem_singleton.mp hx
      by_cases hy : y ∈ visited ++ x :: waiting
      · exact List.mem_append_left _ hy
      · exact List.mem_append_right _ (mem_unseen.mpr ⟨hxy, hy⟩)

theorem length_le (h : Frontier g start visited waiting) :
    (visited ++ waiting).length ≤ 2 * g.edges.length + 1 := by
  rw [← length_ends g start]
  exact (List.subperm_of_subset h.nodup fun x hx => (h.joined x hx).mem_ends).length_le

/-- The search ends, since every round visits another id. -/
theorem explores {n : Nat} (h : Frontier g start visited waiting)
    (hn : 2 * g.edges.length + 1 ≤ n + visited.length) :
    ∃ result, g.explore n (visited ++ waiting) waiting = result ∧
      g.Explores (visited ++ waiting) waiting result ∧ Frontier g start result [] := by
  induction n generalizing visited waiting with
  | zero =>
    -- as many ids were visited as can be seen, so none is left to wait
    have hlength := h.length_le
    rw [List.length_append] at hlength
    obtain rfl : waiting = [] := List.eq_nil_of_length_eq_zero (by omega)
    rw [List.append_nil]
    exact ⟨visited, rfl, .done visited, h⟩
  | succ n ih =>
    cases waiting with
    | nil =>
      rw [List.append_nil]
      exact ⟨visited, rfl, .done visited, h⟩
    | cons current waiting =>
      have hround : 2 * g.edges.length + 1 ≤ n + (visited ++ [current]).length := by
        rw [List.length_append, List.length_singleton]
        omega
      obtain ⟨result, hresult, hexplores, hfrontier⟩ := ih h.visit hround
      rw [visited_append] at hresult hexplores
      exact ⟨result, hresult, .visit hexplores, hfrontier⟩

/-- When no id waits, those that were visited are all that can be reached. -/
theorem mem_iff (h : Frontier g start visited []) {x : String} :
    x ∈ visited ↔ g.Joined start x := by
  have hclosed := h.closed
  have hstart := h.start_mem
  have hjoined := h.joined
  rw [List.append_nil] at hclosed hstart hjoined
  refine ⟨hjoined x, fun hx => ?_⟩
  induction hx with
  | refl => exact hstart
  | tail _ hlast ih => exact hclosed _ ih _ hlast

end Frontier

theorem frontier_component (g : Graph) (start : String) :
    g.Explores [start] [start] (g.component start) ∧ Frontier g start (g.component start) [] := by
  obtain ⟨result, hresult, hexplores, hfrontier⟩ :=
    (Frontier.init g start).explores (n := 2 * g.edges.length + 1) (Nat.le_add_right _ _)
  obtain rfl : g.component start = result := hresult
  exact ⟨hexplores, hfrontier⟩

theorem mem_component {g : Graph} {start x : String} : x ∈ g.component start ↔ g.Joined start x :=
  (g.frontier_component start).2.mem_iff

theorem nodup_component (g : Graph) (start : String) : (g.component start).Nodup := by
  simpa using (g.frontier_component start).2.nodup

theorem Joined.component_perm {g : Graph} {x y : String} (h : g.Joined x y) :
    (g.component x).Perm (g.component y) := by
  rw [List.perm_ext_iff_of_nodup (g.nodup_component x) (g.nodup_component y)]
  intro z
  rw [mem_component, mem_component]
  exact ⟨h.symm.trans, h.trans⟩

section Nodes

variable {g : Graph} {n : Node}

theorem Indexed.mem_nodes_of_joined (h : g.Indexed) {x y : String} (hx : x ∈ g.nodes.map Node.id)
    (hxy : g.Joined x y) : y ∈ g.nodes.map Node.id := by
  cases hxy with
  | refl => exact hx
  | tail _ hlast =>
    obtain ⟨e, he, hends⟩ := hlast
    rcases hends with ⟨_, rfl⟩ | ⟨rfl, _⟩
    · exact (h.ends e he).2
    · exact (h.ends e he).1

theorem Indexed.nodup_nodes (h : g.Indexed) : (g.nodes.map Node.id).Nodup := by
  have hids := h.nodup_ids
  rw [ids, List.nodup_cons, List.nodup_append] at hids
  exact hids.2.1

def classOf (g : Graph) (n : Node) : Set String := { x | x ∈ g.nodes.map Node.id ∧ g.Joined n.id x }

theorem Indexed.mem_component_iff (h : g.Indexed) (hn : n ∈ g.nodes) (x : String) :
    x ∈ g.component n.id ↔ x ∈ g.classOf n := by
  rw [mem_component]
  exact ⟨fun hx => ⟨h.mem_nodes_of_joined (List.mem_map_of_mem hn) hx, hx⟩, fun hx => hx.2⟩

theorem Indexed.length_component (h : g.Indexed) (hn : n ∈ g.nodes) :
    (g.component n.id).length = (g.classOf n).ncard := by
  have hclass : g.classOf n = ((g.component n.id).toFinset : Set String) := by
    ext x
    rw [List.coe_toFinset]
    exact (h.mem_component_iff hn x).symm
  rw [hclass, Set.ncard_coe_finset, List.toFinset_card_of_nodup (g.nodup_component n.id)]

theorem Indexed.length_component_eq_iff (h : g.Indexed) (hn : n ∈ g.nodes) :
    (g.component n.id).length = g.nodes.length ↔ ∀ m ∈ g.nodes, g.Joined n.id m.id := by
  have hsubset : g.component n.id ⊆ g.nodes.map Node.id :=
    fun x hx => h.mem_nodes_of_joined (List.mem_map_of_mem hn) (mem_component.mp hx)
  have hsubperm := List.subperm_of_subset (g.nodup_component n.id) hsubset
  rw [← List.length_map (f := Node.id)]
  constructor
  · intro hlength m hm
    have hperm := hsubperm.perm_of_length_le hlength.ge
    exact mem_component.mp (hperm.mem_iff.mpr (List.mem_map_of_mem hm))
  · intro hall
    refine hsubperm.length_le.antisymm
      (List.subperm_of_subset h.nodup_nodes fun x hx => ?_).length_le
    obtain ⟨m, hm, rfl⟩ := List.mem_map.mp hx
    exact mem_component.mpr (hall m hm)

theorem Indexed.isConnected_iff (h : g.Indexed) :
    g.isConnected = true ↔ ∀ m ∈ g.nodes, ∀ n ∈ g.nodes, g.Joined m.id n.id := by
  unfold isConnected
  split
  case h_1 hnil => simp [hnil]
  case h_2 first rest hnodes =>
    have hfirst : first ∈ g.nodes := by simp [hnodes]
    rw [decide_eq_true_iff, h.length_component_eq_iff hfirst]
    constructor
    · intro hall m hm n hn
      exact (hall m hm).symm.trans (hall n hn)
    · intro hall m hm
      exact hall first hfirst m hm

end Nodes

/-- In a graph that operations build, the search from any id comes to an end, and from a node it
ends with the nodes that are joined with it, each of them once. So the size of a component is the
number of these nodes and the same for all of them, and the graph is connected if and only if every
two nodes are joined, as they are when there are none. -/
theorem Built.connectivity {g : Graph} (h : g.Built) :
    (∀ start, g.Explores [start] [start] (g.component start)) ∧
    (∀ n ∈ g.nodes, (g.component n.id).Nodup ∧ (∀ x, x ∈ g.component n.id ↔ x ∈ g.classOf n) ∧
      NumericMeasure.componentSize.value? g (.node n) = some (g.classOf n).ncard) ∧
    (∀ m ∈ g.nodes, ∀ n ∈ g.nodes, g.Joined m.id n.id →
      NumericMeasure.componentSize.value? g (.node m) =
        NumericMeasure.componentSize.value? g (.node n)) ∧
    ∃ b, BooleanMeasure.isConnected.value? g (.graph g) = some b ∧
      (b = true ↔ ∀ m ∈ g.nodes, ∀ n ∈ g.nodes, g.Joined m.id n.id) := by
  have hg := h.indexed
  refine ⟨fun start => (g.frontier_component start).1,
    fun n hn => ⟨g.nodup_component n.id, ?_, ?_⟩, ?_, ?_⟩
  · exact hg.mem_component_iff hn
  · exact congrArg some (hg.length_component hn)
  · intro m _ n _ hmn
    exact congrArg some hmn.component_perm.length_eq
  · exact ⟨g.isConnected, rfl, hg.isConnected_iff⟩

def rowOperations : List Operation :=
  [.addNode ⟨"a", []⟩, .addNode ⟨"b", []⟩, .addNode ⟨"c", []⟩, .addNode ⟨"d", []⟩,
    .addEdge ⟨"ab", "a", "b", []⟩, .addEdge ⟨"ba", "b", "a", []⟩, .addEdge ⟨"cb", "c", "b", []⟩,
    .addEdge ⟨"cc", "c", "c", []⟩]

theorem Built.connectivity_row : ∃ g : Graph, g.Built ∧ g = run {} rowOperations ∧
    g.Explores ["c"] ["c"] ["c", "b", "a"] ∧ (g.classOf ⟨"a", []⟩).ncard = 3 ∧ g.Joined "a" "c" ∧
    NumericMeasure.componentSize.value? g (.node ⟨"c", []⟩) = some 3 ∧
    ¬ ∀ m ∈ g.nodes, ∀ n ∈ g.nodes, g.Joined m.id n.id := by
  obtain ⟨g, hg⟩ : ∃ g : Graph, g = run {} rowOperations := ⟨_, rfl⟩
  have hbuilt : g.Built := ⟨"graph", true, [], rowOperations, hg⟩
  obtain ⟨hends, hclass, hsize, b, hconnected, hb⟩ := connectivity hbuilt
  have ha : (⟨"a", []⟩ : Node) ∈ g.nodes := by rw [hg]; decide
  have hc : (⟨"c", []⟩ : Node) ∈ g.nodes := by rw [hg]; decide
  obtain ⟨_, hmem, hvalue⟩ := hclass ⟨"a", []⟩ ha
  have hthree : NumericMeasure.componentSize.value? g (.node ⟨"a", []⟩) = some 3 := by
    rw [hg]; decide
  have hjoined : g.Joined "a" "c" := ((hmem "c").mp (by rw [hg]; decide)).2
  have hrow : g.component "c" = ["c", "b", "a"] := by rw [hg]; decide
  refine ⟨g, hbuilt, hg, hrow ▸ hends "c", ?_, hjoined, ?_, ?_⟩
  · exact Option.some.inj (hvalue.symm.trans hthree)
  · exact (hsize _ ha _ hc hjoined).symm.trans hthree
  · rw [← hb]
    have hfalse : BooleanMeasure.isConnected.value? g (.graph g) = some false := by rw [hg]; decide
    simpa using Option.some.inj (hconnected.symm.trans hfalse)

end GraphRules.Graph
