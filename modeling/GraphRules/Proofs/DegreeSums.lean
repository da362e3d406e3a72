import GraphRules.Proofs.Components
import Mathlib.Algebra.BigOperators.Group.List.Lemmas

/-! Sums of degrees. Every end of an edge is the id of exactly one node, so the numbers of ends at
the nodes add up to the number of all ends, whatever loops and parallel edges there are. -/
namespace GraphRules

def NumericMeasure.total? (m : NumericMeasure) (g : Graph) : Option Nat :=
  (g.nodes.mapM fun n => m.value? g (.node n)).map List.sum

theorem NumericMeasure.total?_eq {m : NumericMeasure} {g : Graph} {f : String → Nat}
    (h : ∀ n : Node, m.value? g (.node n) = some (f n.id)) :
    m.total? g = some (((g.nodes.map Node.id).map f).sum) := by
  have hvalue : (fun n => m.value? g (.node n)) = fun n : Node => some (f n.id) := funext h
  have hall : g.nodes.mapM (fun n => m.value? g (.node n)) =
      some (g.nodes.map fun n => f n.id) := by
    rw [hvalue]
    exact List.mapM_pure
  rw [total?, hall, Option.map_some, List.map_map]
  rfl

namespace Graph

def edgeEnds (g : Graph) : List String := g.edges.flatMap fun e => [e.source, e.target]

section Counts

variable {g : Graph} {ys : List String}

theorem inCount_eq (g : Graph) (x : String) : g.inCount x = (g.edges.map Edge.target).count x := by
  rw [inCount, List.count, List.countP_map]
  rfl

theorem outCount_eq (g : Graph) (x : String) :
    g.outCount x = (g.edges.map Edge.source).count x := by
  rw [outCount, List.count, List.countP_map]
  rfl

theorem length_edgeEnds (g : Graph) : g.edgeEnds.length = 2 * g.edges.length := by
  rw [edgeEnds]
  induction g.edges with
  | nil => rfl
  | cons e es ih =>
    simp only [List.flatMap_cons, List.length_append, List.length_cons, List.length_nil, ih]
    omega

/-- A degree is a number of ends: a loop has two of them at its node. -/
theorem degree_eq (g : Graph) (x : String) : g.degree x = g.edgeEnds.count x := by
  rw [degree, inCount_eq, outCount_eq, edgeEnds]
  induction g.edges with
  | nil => rfl
  | cons e es ih =>
    simp only [List.map_cons, List.count_cons, List.flatMap_cons, List.count_append,
      List.count_nil] at ih ⊢
    omega

theorem Indexed.sum_count (h : g.Indexed) (hys : ∀ y ∈ ys, y ∈ g.nodes.map Node.id) :
    ((g.nodes.map Node.id).map fun x => ys.count x).sum = ys.length := by
  induction ys with
  | nil => exact List.sum_eq_zero (by simp)
  | cons y ys ih =>
    obtain ⟨hy, hys⟩ := List.forall_mem_cons.mp hys
    have hone : ((g.nodes.map Node.id).map fun x => if y == x then 1 else 0).sum = 1 := by
      rw [List.sum_map_eq_nsmul_single y _ fun x hx _ => if_neg (by simpa using Ne.symm hx),
        List.count_eq_one_of_mem h.nodup_nodes hy]
      simp
    simp only [List.count_cons, List.sum_map_add, hone, ih hys, List.length_cons]

theorem Indexed.mem_edgeEnds (h : g.Indexed) {x : String} (hx : x ∈ g.edgeEnds) :
    x ∈ g.nodes.map Node.id := by
  obtain ⟨e, he, hx⟩ := List.mem_flatMap.mp hx
  obtain ⟨hsource, htarget⟩ := h.ends e he
  rcases List.mem_pair.mp hx with rfl | rfl
  · exact hsource
  · exact htarget

/-- A measure that counts the members of a list of nodes adds up to the length of the list. -/
theorem Indexed.total?_eq_length (h : g.Indexed) {m : NumericMeasure}
    (hm : ∀ n : Node, m.value? g (.node n) = some (ys.count n.id))
    (hys : ∀ y ∈ ys, y ∈ g.nodes.map Node.id) : m.total? g = some ys.length := by
  rw [NumericMeasure.total?_eq (f := fun x => ys.count x) hm, h.sum_count hys]

end Counts

/-- In a graph that operations build, the degrees of all nodes add up to twice the number of edges,
and each of them is the number of edge ends at its node. In a directed graph the numbers of edges
that come in and of those that go out each add up to the number of edges, and together they are the
degree of a node; in an undirected one all three are the same. -/
theorem Built.degree_sums {g : Graph} (h : g.Built) :
    NumericMeasure.degree.total? g = some (2 * g.edges.length) ∧
    (∀ n ∈ g.nodes, NumericMeasure.degree.value? g (.node n) = some (g.edgeEnds.count n.id)) ∧
    (g.directed = true →
      NumericMeasure.inDegree.total? g = some g.edges.length ∧
        NumericMeasure.outDegree.total? g = some g.edges.length ∧
      ∀ n ∈ g.nodes, ∃ i o, NumericMeasure.inDegree.value? g (.node n) = some i ∧
        NumericMeasure.outDegree.value? g (.node n) = some o ∧
          NumericMeasure.degree.value? g (.node n) = some (i + o)) ∧
    (g.directed = false → ∀ n ∈ g.nodes,
      NumericMeasure.inDegree.value? g (.node n) = NumericMeasure.degree.value? g (.node n) ∧
      NumericMeasure.outDegree.value? g (.node n) = NumericMeasure.degree.value? g (.node n)) := by
  have hg := h.indexed
  have hdegree : ∀ n : Node, NumericMeasure.degree.value? g (.node n) =
      some (g.edgeEnds.count n.id) :=
    fun n => congrArg some (g.degree_eq n.id)
  refine ⟨?_, fun n _ => hdegree n, fun hdirected => ?_, fun hundirected n _ => ?_⟩
  · rw [hg.total?_eq_length hdegree fun x => hg.mem_edgeEnds, length_edgeEnds]
  · have hin : ∀ n : Node, NumericMeasure.inDegree.value? g (.node n) =
        some ((g.edges.map Edge.target).count n.id) := by
      intro n
      simp only [NumericMeasure.value?, hdirected, if_true, inCount_eq]
    have hout : ∀ n : Node, NumericMeasure.outDegree.value? g (.node n) =
        some ((g.edges.map Edge.source).count n.id) := by
      intro n
      simp only [NumericMeasure.value?, hdirected, if_true, outCount_eq]
    refine ⟨?_, ?_, fun n _ => ⟨_, _, hin n, hout n, ?_⟩⟩
    · rw [hg.total?_eq_length hin (List.forall_mem_map.mpr fun e he => (hg.ends e he).2),
        List.length_map]
    · rw [hg.total?_eq_length hout (List.forall_mem_map.mpr fun e he => (hg.ends e he).1),
        List.length_map]
    · rw [NumericMeasure.value?, degree, inCount_eq, outCount_eq]
  · simp [NumericMeasure.value?, hundirected]

def loopOperations : List Operation :=
  [.addNode ⟨"a", []⟩, .addNode ⟨"b", []⟩, .addNode ⟨"c", []⟩, .addEdge ⟨"first", "a", "b", []⟩,
    .addEdge ⟨"second", "a", "b", []⟩, .addEdge ⟨"back", "b", "a", []⟩,
    .addEdge ⟨"loop", "b", "b", []⟩,
    .addEdge ⟨"again", "b", "b", []⟩]

theorem Built.degree_sums_loops :
    ∃ g g' : Graph, g.Built ∧ g'.Built ∧ g = run {} loopOperations ∧
      g' = run { directed := false } loopOperations ∧ g.directed = true ∧
      NumericMeasure.degree.total? g = some 10 ∧ NumericMeasure.inDegree.total? g = some 5 ∧
      NumericMeasure.outDegree.total? g = some 5 ∧ g'.directed = false ∧
      NumericMeasure.degree.total? g' = some 10 ∧
      NumericMeasure.inDegree.value? g' (.node ⟨"b", []⟩) = some 7 := by
  obtain ⟨g, hg⟩ : ∃ g : Graph, g = run {} loopOperations := ⟨_, rfl⟩
  obtain ⟨g', hg'⟩ : ∃ g : Graph, g = run { directed := false } loopOperations := ⟨_, rfl⟩
  have hbuilt : g.Built := ⟨"graph", true, [], loopOperations, hg⟩
  have hbuilt' : g'.Built := ⟨"graph", false, [], loopOperations, hg'⟩
  have hdirected : g.directed = true := by rw [hg]; decide
  have hundirected : g'.directed = false := by rw [hg']; decide
  have hfive : g.edges.length = 5 ∧ g'.edges.length = 5 := by rw [hg, hg']; decide
  have hb : (⟨"b", []⟩ : Node) ∈ g'.nodes ∧ g'.edgeEnds.count "b" = 7 := by rw [hg']; decide
  obtain ⟨hsum, -, hin, -⟩ := degree_sums hbuilt
  obtain ⟨hsum', hends, -, hsame⟩ := degree_sums hbuilt'
  obtain ⟨hin, hout, -⟩ := hin hdirected
  rw [hfive.1] at hsum hin hout
  rw [hfive.2] at hsum'
  refine ⟨g, g', hbuilt, hbuilt', hg, hg', hdirected, hsum, hin, hout, hundirected, hsum', ?_⟩
  rw [(hsame hundirected _ hb.1).1, hends _ hb.1, hb.2]

end Graph

end GraphRules
