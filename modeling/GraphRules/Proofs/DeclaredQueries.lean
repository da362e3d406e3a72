import GraphRules.Proofs.QueryAnswers

/-! The queries that a script declares. A program announces them by facts of a predicate that only
the compiler may define, so the facts that are found are those of the declarations, in their order,
whatever else the script defines. -/
namespace GraphRules

open Check Lowering

namespace Vocabulary

theorem any_name_insertEntry (s : Signature) (r : Role) (x : String)
    (es : List (Signature × Role)) :
    ((insertEntry s r es).any fun e => e.1.name = x) =
      (decide (s.name = x) || es.any fun e => e.1.name = x) := by
  induction es with
  | nil => rfl
  | cons e es ih =>
    obtain ⟨t, q⟩ := e
    unfold insertEntry
    split_ifs with heq hbefore
    · subst heq
      simp
    · simp
    · simp only [List.any_cons, ih, Bool.or_left_comm]

theorem containsName_insert (v : Vocabulary) (s : Signature) (r : Role) (x : String) :
    (v.insert s r).containsName x = (decide (s.name = x) || v.containsName x) :=
  any_name_insertEntry s r x v.entries

end Vocabulary

theorem Compiler.containsName_query (v : Vocabulary) (threshold : Nat) :
    (ofVocabulary v threshold).vocabulary.containsName "query" := by
  simp [ofVocabulary, reservedNames, Vocabulary.containsName_insert]

def Compiler.standardVocabulary : Vocabulary :=
  ⟨[(⟨"attribute", 3⟩, .attribute), (⟨"component_size", 2⟩, .numeric), (⟨"degree", 2⟩, .numeric),
    (⟨"edge", 1⟩, .structural), (⟨"edge", 2⟩, .structural), (⟨"edge", 3⟩, .structural),
    (⟨"edge_count", 2⟩, .numeric), (⟨"fail", 0⟩, .reserved),
    (⟨"false", 0⟩, .reserved), (⟨"graph", 1⟩, .structural), (⟨"in_degree", 2⟩, .numeric),
    (⟨"is_connected", 1⟩, .boolean),
    (⟨"is_directed", 1⟩, .boolean), (⟨"is_isolated", 1⟩, .boolean), (⟨"is_leaf", 1⟩, .boolean),
    (⟨"is_loop", 1⟩, .boolean),
    (⟨"is_root", 1⟩, .boolean), (⟨"multiplicity", 2⟩, .numeric), (⟨"node", 1⟩, .structural),
    (⟨"node_count", 2⟩, .numeric),
    (⟨"not", 1⟩, .reserved), (⟨"out_degree", 2⟩, .numeric), (⟨"query", 2⟩, .reserved),
    (⟨"true", 0⟩, .reserved)]⟩

theorem Compiler.vocabulary_standard_eq (n : Nat) :
    (standard n).vocabulary = standardVocabulary := by
  have hentries : (standard 0).vocabulary.entries = standardVocabulary.entries := by decide +kernel
  rw [vocabulary_standard n 0]
  exact congrArg Vocabulary.mk hentries

/-- A script that compiles, from what can be computed. The vocabulary is not put in order again for
each script. -/
theorem Compiler.exists_ok_of_check (n : Nat) (source : String) {P : Script → Bool}
    (h : (Script.parse source).toOption.any fun s => (s.check standardVocabulary).isOk && P s) :
    ∃ s program, Script.parse source = .ok s ∧ (standard n).compile source = .ok program ∧ P s := by
  rw [← vocabulary_standard_eq n] at h
  obtain ⟨s, hparse, hs⟩ := exists_ok_of_any h
  obtain ⟨hok, hP⟩ := Bool.and_eq_true_iff.mp hs
  exact ⟨s, _, hparse, by rw [compile, hparse]; exact if_pos hok, hP⟩

namespace Script.Checked

variable {v : Vocabulary} {s : Script} {program : Program}

theorem exists_query_of_known (h : s.Checked v program) {c : Clause} (hc : c ∈ program.clauses)
    {p : Signature} (hsig : c.signature? = some p) (hknown : v.containsName p.name) :
    ∃ q, .query q ∈ s.items ∧ c = queryFact q.name q.headVariables.length := by
  rw [h.clauses] at hc
  obtain ⟨i, hi, hc⟩ := List.mem_flatMap.mp hc
  rcases h.signature_cases hi hc hsig with ⟨d, hd, hname⟩ | ⟨q, rfl, rfl⟩
  · rw [← hname, h.unknown hi hd] at hknown
    cases hknown
  · exact ⟨q, hi, rfl⟩

/-- What is announced by the clauses of an item is what the item declares. -/
theorem announced_itemClauses (h : s.Checked v program) {i : Item} (hi : i ∈ s.items) :
    (itemClauses i).filterMap Program.announced? =
      (i.query?.map fun q => (q.name, q.headVariables.length)).toList := by
  have hdefines : ∀ c ∈ itemClauses i, ∀ x, Program.announced? c = some x →
      ∃ q, i = .query q ∧ c = queryFact q.name q.headVariables.length := by
    intro c hc x hx
    have hsig : c.signature? = some ⟨"query", 2⟩ := by
      rw [Clause.signature?, Program.head_of_announced hx]; rfl
    refine (h.signature_cases hi hc hsig).resolve_left ?_
    rintro ⟨d, hd, hname⟩
    exact h.ne_query hi hd hname
  have hnone : ∀ cs : List Clause, (∀ c ∈ cs, c ∈ itemClauses i) →
      (∀ c ∈ cs, ∀ q, i = .query q → c ≠ queryFact q.name q.headVariables.length) →
      cs.filterMap Program.announced? = [] := by
    intro cs hcs hne
    refine List.filterMap_eq_nil_iff.mpr fun c hc =>
      Option.eq_none_iff_forall_ne_some.mpr fun x hx => ?_
    obtain ⟨q, hq, hfact⟩ := hdefines c (hcs c hc) x hx
    exact hne c hc q hq hfact
  cases i with
  | labels d => exact hnone _ (fun _ hc => hc) fun _ _ _ hq => by cases hq
  | rule r => exact hnone _ (fun _ hc => hc) fun _ _ _ hq => by cases hq
  | query q =>
    have hfact : Program.announced? (queryFact q.name q.headVariables.length) =
        some (q.name, q.headVariables.length) := rfl
    have hrest := hnone (q.body.alternatives.map (queryClause q.name q.headVariables))
      (fun c hc => List.mem_cons_of_mem _ hc) ?_
    · rw [itemClauses, queryClauses, List.filterMap_cons, hfact]
      exact congrArg (_ :: ·) hrest
    · rintro c hc _ ⟨⟩ rfl
      obtain ⟨a, _, ha⟩ := List.mem_map.mp hc
      have hhead := congrArg Clause.signature? ha
      rw [queryClause, Clause.signature?, Term.signature_apply] at hhead
      have hname : q.name = "query" := congrArg Signature.name (Option.some.inj hhead)
      exact h.ne_query hi (List.mem_singleton_self _) hname

theorem queries_eq (h : s.Checked v program) :
    program.queries =
      (s.items.filterMap Item.query?).map fun q => (q.name, q.headVariables.length) := by
  rw [Program.queries, h.clauses, List.filterMap_flatMap, List.map_filterMap,
    List.filterMap_eq_flatMap_toList]
  exact List.flatMap_congr fun i hi => h.announced_itemClauses hi

end Script.Checked

/-- The queries of a compiled script are found in the order of their declarations, each with the
number of its answer variables. A query is asked by its name applied to these variables, its clauses
are its alternatives, and no clause defines a predicate of the vocabulary except the facts that
announce the queries. -/
theorem Script.queries_of_compile {v : Vocabulary} {threshold : Nat} {source : String}
    {s : Script} {program : Program} (hparse : Script.parse source = .ok s)
    (hcompile : (Compiler.ofVocabulary v threshold).compile source = .ok program) :
    program.queries = (s.items.filterMap Item.query?).map
      (fun q => (q.name, q.headVariables.length)) ∧ (∀ q, .query q ∈ s.items →
        program.queryGoal? q.name = some (.apply q.name (q.headVariables.map .named)) ∧
        program.clauses.filter (fun c => c.signature? = some ⟨q.name, q.headVariables.length⟩) =
          q.body.alternatives.map (queryClause q.name q.headVariables)) ∧
      ∀ c ∈ program.clauses, ∀ p, c.signature? = some p →
        (Compiler.ofVocabulary v threshold).vocabulary.containsName p.name →
        ∃ q, .query q ∈ s.items ∧ c = queryFact q.name q.headVariables.length := by
  have hchecked := checked_of_compile hparse hcompile (Compiler.containsName_query v threshold)
  refine ⟨hchecked.queries_eq,
    fun q hq => ⟨hchecked.queryGoal?_query hq, hchecked.filter_signature hq⟩, ?_⟩
  intro c hc p hsig hknown
  exact hchecked.exists_query_of_known hc hsig hknown

/-- A script that also defines labels and rules. One of its queries repeats a variable, and one has
variables under a negation only. -/
def herdSource : String :=
  "node labels: wolf.\nquery near: edge(X, Y), (wolf(X); wolf(Y)), not same(Y, X).\n" ++
    "edge(X, Y) -> same(X, Y), same(Y, X).\nquery calm: not wolf(_).\n"

theorem Script.queries_of_compile_herd : ∃ s program q c, Script.parse herdSource = .ok s ∧
    (Compiler.ofVocabulary Standard.declarations.vocabulary 16).compile herdSource = .ok program ∧
    (.query q ∈ s.items ∧ q.name = "near" ∧ q.headVariables = ["X", "Y"] ∧
      q.body.alternatives.length = 2) ∧
    (c ∈ program.clauses ∧ c.signature? = some ⟨"query", 2⟩) ∧
    program.queries = [("near", 2), ("calm", 0)] ∧
    program.queryGoal? q.name = some (.apply q.name (q.headVariables.map .named)) ∧
    program.clauses.filter (fun c => c.signature? = some ⟨q.name, q.headVariables.length⟩) =
      q.body.alternatives.map (queryClause q.name q.headVariables) ∧
    ∃ q', .query q' ∈ s.items ∧ c = queryFact q'.name q'.headVariables.length := by
  obtain ⟨s, program, hparse, hcompile, hscript⟩ := Compiler.exists_ok_of_check 16 herdSource
    (P := fun s => ((s.items.filterMap Item.query?).map fun q => (q.name, q.headVariables.length)) =
        [("near", 2), ("calm", 0)] && s.items.any fun i => i.query?.any fun q =>
      q.name = "near" && q.headVariables = ["X", "Y"] && q.body.alternatives.length = 2) (by
      decide +kernel)
  obtain ⟨hdeclared, hquery⟩ := Bool.and_eq_true_iff.mp hscript
  obtain ⟨q, hq, hshape⟩ := exists_query_of_any hquery
  simp only [Bool.and_eq_true, decide_eq_true_eq] at hshape
  obtain ⟨hfound, hgoals, hknown⟩ := queries_of_compile hparse hcompile
  have hfact : queryFact q.name q.headVariables.length ∈ program.clauses := by
    rw [(Compiler.compile_eq_ok hparse hcompile).2.1]
    exact List.mem_flatMap.mpr ⟨_, hq, List.mem_cons_self⟩
  exact ⟨s, program, q, _, hparse, hcompile, ⟨hq, hshape.1.1, hshape.1.2, hshape.2⟩, ⟨hfact, rfl⟩,
    hfound.trans (of_decide_eq_true hdeclared), (hgoals q hq).1, (hgoals q hq).2,
    hknown _ hfact _ rfl (Compiler.containsName_query _ _)⟩

end GraphRules
