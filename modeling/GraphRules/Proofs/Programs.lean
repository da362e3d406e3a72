import GraphRules.Program.Basic
import GraphRules.Proofs.Acceptance
import GraphRules.Proofs.Lowered
import GraphRules.Proofs.Reading
import GraphRules.Proofs.Termination
import Mathlib.Algebra.Order.BigOperators.Group.List
import Mathlib.Algebra.Order.Group.Nat

/-! Programs loaded into an engine. The clauses of a predicate are the facts about the graph and the
clauses of the program with its signature; none of them has compound terms as arguments, and every
search comes to an end. -/
namespace GraphRules

theorem Theory.clausesOf_insertAll (t : Theory) (cs : List Clause) (s : Signature) :
    (t.insertAll cs).clausesOf s = t.clausesOf s ++ cs.filter fun c => c.signature? = some s := by
  induction cs generalizing t with
  | nil => exact (List.append_nil _).symm
  | cons c cs ih =>
    rw [insertAll, List.foldl_cons, ← insertAll, ih, clausesOf_insert, List.filter_cons]
    by_cases h : c.signature? = some s <;> simp [h]

def Program.engine (p : Program) (g : Graph) (limits : Limits) : Engine :=
  Engine.load { library := Standard.library g, limits } p.clauses

namespace Standard

theorem facts_declarations (g : Graph) : declarations.facts g = shapeFacts g := List.append_nil _

theorem isForeign_iff (g : Graph) (s : Signature) :
    (library g).isForeign s ↔ s ∈ declarations.predicates.map Predicate.signature := by
  rw [Library.isForeign, Library.predicate?, List.find?_isSome]
  simp [library, Library.ofGraph, Library.rebuild]

end Standard

namespace Compiler

theorem compile_eq_ok {c : Compiler} {source : String} {script : Script} {program : Program}
    (hs : Script.parse source = .ok script) (h : c.compile source = .ok program) :
    (script.check c.vocabulary).isOk ∧ program.clauses = script.items.flatMap Lowering.itemClauses ∧
      ∀ w ∈ (script.check c.vocabulary).warnings, w ∈ program.warnings := by
  unfold compile at h
  rw [hs] at h
  dsimp only at h
  split at h
  · next hok =>
    cases h
    exact ⟨hok, rfl, fun w hw => List.mem_append_left _ hw⟩
  · cases h

theorem vocabulary_standard (n m : Nat) : (standard n).vocabulary = (standard m).vocabulary := rfl

/-- Names that scripts cannot define: those of the search itself, of the shape of the graph and of
foreign predicates. -/
theorem containsName_standard (n : Nat) :
    ∀ x ∈ ["query", "not", "true", "fail", "false", "graph", "node", "edge"] ++
        (Standard.declarations.predicates.map Predicate.signature).map Signature.name,
      (standard n).vocabulary.containsName x := by
  rw [vocabulary_standard n 0]
  decide +kernel

end Compiler

namespace Lowering

/-- Heads of lowered clauses have no compound arguments, and neither have the calls of their bodies.
-/
theorem itemClauses_flat {i : Item} {c : Clause} (hc : c ∈ itemClauses i) :
    (∃ p args, c.head = .apply p args ∧ args.all Term.isFlat) ∧ ∀ g ∈ c.body, g.Tame := by
  cases i with
  | labels d =>
    obtain ⟨l, _, rfl⟩ := List.mem_map.mp hc
    refine ⟨⟨l.predicate, [.named "X"], rfl, rfl⟩, ?_⟩
    intro g hg
    simp only [labelClause, List.mem_cons, List.not_mem_nil, or_false] at hg
    rcases hg with rfl | rfl
    · exact @Term.Tame.call d.kind.predicate [.named "X"] rfl
    · exact @Term.Tame.call "attribute" [.named "X", .atom "label", .atom l.value] rfl
  | rule r =>
    simp only [itemClauses, ruleClauses] at hc
    cases hr : r.antecedent? with
    | none =>
      rw [hr] at hc
      obtain ⟨h, _, rfl⟩ := List.mem_map.mp hc
      obtain ⟨ws, ts, hts, hcall, _⟩ := lowerCall_spec h.vars h 0
      exact ⟨⟨h.name, ts, hcall, hts.all_isFlat⟩, nofun⟩
    | some f =>
      rw [hr] at hc
      obtain ⟨h, _, hc⟩ := List.mem_flatMap.mp hc
      obtain ⟨a, _, rfl⟩ := List.mem_map.mp hc
      obtain ⟨ws, ts, hts, hcall, _⟩ := lowerCall_spec (h.vars ++ Literal.varsAll a) h 0
      obtain ⟨ws', hls, _⟩ := lowerLiterals_spec (h.vars ++ Literal.varsAll a) a (lowerCall _ h 0).2
      exact ⟨⟨h.name, ts, hcall, hts.all_isFlat⟩, hls.tame⟩
  | query q =>
    rcases List.mem_cons.mp hc with rfl | hc
    · exact ⟨⟨"query", [.atom q.name, .int q.headVariables.length], rfl, rfl⟩, nofun⟩
    · obtain ⟨a, _, rfl⟩ := List.mem_map.mp hc
      obtain ⟨ws, hls, _⟩ := lowerLiterals_spec (Literal.varsAll a) a 0
      refine ⟨⟨q.name, q.headVariables.map .named, rfl, ?_⟩, hls.tame⟩
      rw [List.all_map]
      exact List.all_eq_true.mpr fun _ _ => rfl

end Lowering

theorem Term.occurrencesList_atoms (ids : List String) :
    Term.occurrencesList (ids.map .atom) = [] := by
  induction ids with
  | nil => rfl
  | cons id ids ih => rw [List.map_cons, Term.occurrencesList, ih]; rfl

namespace Program

variable {p : Program} {s : Script}

theorem clausesOf_engine (p : Program) (g : Graph) (limits : Limits) (s : Signature) :
    (p.engine g limits).clausesOf s =
      (Standard.shapeFacts g).filter (fun c => c.signature? = some s) ++
        p.clauses.filter fun c => c.signature? = some s := by
  have hlibrary : (Standard.library g).theory.clausesOf s = _ :=
    Theory.clausesOf_insertAll .empty (Standard.declarations.facts g) s
  have hdatabase := Theory.clausesOf_insertAll .empty p.clauses s
  rw [Standard.facts_declarations] at hlibrary
  exact congrArg₂ (· ++ ·) hlibrary hdatabase

theorem mem_clausesOf_engine {g : Graph} {limits : Limits} {s : Signature} {c : Clause} :
    c ∈ (p.engine g limits).clausesOf s ↔
      (c ∈ Standard.shapeFacts g ∨ c ∈ p.clauses) ∧ c.signature? = some s := by
  rw [clausesOf_engine, List.mem_append, List.mem_filter, List.mem_filter, decide_eq_true_eq]
  tauto

theorem shapeFacts_flat {g : Graph} {c : Clause} (hc : c ∈ Standard.shapeFacts g) :
    ∃ name ids, name ∈ ["graph", "node", "edge"] ∧ ids ≠ [] ∧ c = Standard.fact name ids := by
  simp only [Standard.shapeFacts, List.mem_cons, List.mem_append, List.mem_map,
    List.mem_flatMap, List.not_mem_nil, or_false] at hc
  rcases hc with rfl | ⟨n, _, rfl⟩ | ⟨e, _, rfl | rfl | rfl⟩
  · exact ⟨"graph", [g.id], by simp, by simp, rfl⟩
  · exact ⟨"node", [n.id], by simp, by simp, rfl⟩
  · exact ⟨"edge", [e.id], by simp, by simp, rfl⟩
  · exact ⟨"edge", [e.source, e.target], by simp, by simp, rfl⟩
  · exact ⟨"edge", [e.source, e.target, e.id], by simp, by simp, rfl⟩

theorem head_fact {name : String} {ids : List String} (h : ids ≠ []) :
    (Standard.fact name ids).head = .apply name (ids.map .atom) := by
  cases ids with
  | nil => exact (h rfl).elim
  | cons id ids => rfl

/-- Programs of scripts deal in constants and variables only. -/
theorem functionless (hp : p.clauses = s.items.flatMap Lowering.itemClauses) (g : Graph)
    (limits : Limits) : (p.engine g limits).Functionless := by
  have hclauses : ∀ {c : Clause}, c ∈ Standard.shapeFacts g ∨ c ∈ p.clauses →
      (∃ q args, c.head = .apply q args ∧ args.all Term.isFlat) ∧ ∀ t ∈ c.body, t.Tame := by
    rintro c (hc | hc)
    · obtain ⟨name, ids, _, hids, rfl⟩ := shapeFacts_flat hc
      refine ⟨⟨name, ids.map .atom, head_fact hids, ?_⟩, nofun⟩
      rw [List.all_map]
      exact List.all_eq_true.mpr fun _ _ => rfl
    · rw [hp] at hc
      obtain ⟨i, _, hc⟩ := List.mem_flatMap.mp hc
      exact Lowering.itemClauses_flat hc
  exact ⟨fun r c hc => (hclauses (mem_clausesOf_engine.mp hc).1).1,
    fun r c hc => (hclauses (mem_clausesOf_engine.mp hc).1).2, Standard.uniform g⟩

theorem exists_size_bound (p : Program) (g : Graph) (limits : Limits) :
    ∃ B, ∀ s, ∀ c ∈ (p.engine g limits).clausesOf s, Term.sizes c.body ≤ B := by
  refine ⟨((Standard.shapeFacts g ++ p.clauses).map fun c => Term.sizes c.body).sum, ?_⟩
  intro s c hc
  exact List.le_sum_of_mem
    (List.mem_map.mpr ⟨c, List.mem_append.mpr (mem_clausesOf_engine.mp hc).1, rfl⟩)

/-- Every search comes to its end, however scopes are counted. -/
theorem exists_ends {ε : Type} (κ : Reference.Counting ε)
    (hp : p.clauses = s.items.flatMap Lowering.itemClauses) (g : Graph) (limits : Limits) (n : Nat)
    {b : Bindings} (hb : b.Tidy) {gs : List Search.Goal} (hgs : ∀ g ∈ gs, g.term.Tame) :
    ∃ k, (Reference.solve κ (p.engine g limits) k n b gs).ends := by
  obtain ⟨B, hB⟩ := exists_size_bound p g limits
  exact ⟨_, Reference.solve_ends (functionless hp g limits) hB hb hgs (Nat.lt_succ_self _)⟩

theorem solveGoal_ends (hp : p.clauses = s.items.flatMap Lowering.itemClauses) (g : Graph)
    (limits : Limits) {goal : Term} (hgoal : goal.Tame) :
    ∃ k, (Reference.solveGoal .wrapped (p.engine g limits) k goal).ends :=
  exists_ends .wrapped hp g limits 0 Bindings.tidy_empty (by simpa using hgoal)

end Program

end GraphRules
