import GraphRules.Proofs.Programs

/-! Queries of a script in its program. The clauses of a query are its alternatives under the head
with its answer variables, and nothing else in the script or the library defines its name. -/
namespace GraphRules

open Check Lowering

/-- A script that passed the check against some vocabulary, and the program it was lowered to.
Queries are announced by a predicate that scripts cannot define. -/
structure Script.Checked (v : Vocabulary) (s : Script) (program : Program) : Prop where
  clauses : program.clauses = s.items.flatMap itemClauses
  sound : s.Sound v
  readable : ∀ i ∈ s.items, i.Readable
  reserved : v.containsName "query"

structure Script.Compiled (s : Script) (program : Program) : Prop extends
    s.Checked (Compiler.standard 0).vocabulary program

variable {source : String}

theorem Script.checked_of_compile {c : Compiler} {s : Script} {program : Program}
    (hparse : Script.parse source = .ok s) (hcompile : c.compile source = .ok program)
    (hreserved : c.vocabulary.containsName "query") : s.Checked c.vocabulary program := by
  obtain ⟨hok, hclauses, _⟩ := Compiler.compile_eq_ok hparse hcompile
  exact ⟨hclauses, sound_of_check hok, readable_of_parse hparse, hreserved⟩

theorem Script.compiled_of_compile {s : Script} {program : Program} {threshold : Nat}
    (hparse : Script.parse source = .ok s)
    (hcompile : (Compiler.standard threshold).compile source = .ok program) :
    s.Compiled program := by
  have hchecked :=
    checked_of_compile hparse hcompile (Compiler.containsName_standard threshold _ (by simp))
  rw [Compiler.vocabulary_standard threshold 0] at hchecked
  exact ⟨hchecked⟩

def Query.entry (q : Query) : Entry :=
  .definition ⟨q.name, q.headVariables.length, .query, q.nameSpan⟩

def Query.goal (q : Query) : Term := .apply q.name (q.headVariables.map .named)

theorem Program.head_of_announced {c : Clause} {x : String × Nat} (h : announced? c = some x) :
    c.head = .compound "query" [.atom x.1, .int x.2] := by
  unfold announced? at h
  split at h
  · cases h
    rfl
  · cases h

namespace Script.Checked

variable {v : Vocabulary} {s : Script} {program : Program} {i : Item} {q : Query}

theorem unknown (h : s.Checked v program) (hi : i ∈ s.items) {d : Definition}
    (hd : .definition d ∈ entries i) : v.containsName d.name = false := by
  obtain ⟨d', hd', hunknown⟩ := h.sound.unknown i hi _ hd
  cases hd'
  exact hunknown

theorem labelEntry_eq (h : s.Checked v program) {d : LabelDecl} (hd : .labels d ∈ s.items)
    {l : Label} (hl : l ∈ d.labels) :
    labelEntry l = .definition ⟨l.predicate, 1, .label, l.span⟩ := by
  obtain ⟨e, he, _⟩ := h.sound.unknown _ hd (labelEntry l) (List.mem_map_of_mem hl)
  unfold labelEntry at he ⊢
  split_ifs at he ⊢
  rfl

theorem label_mem_entries (h : s.Checked v program) {d : LabelDecl} (hd : .labels d ∈ s.items)
    {l : Label} (hl : l ∈ d.labels) :
    .definition ⟨l.predicate, 1, .label, l.span⟩ ∈ entries (.labels d) :=
  h.labelEntry_eq hd hl ▸ List.mem_map_of_mem hl

theorem ne_query (h : s.Checked v program) (hi : i ∈ s.items) {d : Definition}
    (hd : .definition d ∈ entries i) : d.name ≠ "query" := by
  intro hname
  have hunknown := h.unknown hi hd
  rw [hname, h.reserved] at hunknown
  cases hunknown

/-- A clause defines a name that its item has an entry for, or announces a query. -/
theorem signature_cases (h : s.Checked v program) (hi : i ∈ s.items) {c : Clause}
    (hc : c ∈ itemClauses i) {p : String} {n : Nat} (hsig : c.signature? = some ⟨p, n⟩) :
    (∃ d, .definition d ∈ entries i ∧ d.name = p) ∨ ∃ q, i = .query q ∧
      c = queryFact q.name q.headVariables.length := by
  cases i with
  | labels d =>
    obtain ⟨l, hl, rfl⟩ := List.mem_map.mp hc
    cases hsig
    exact .inl ⟨_, h.label_mem_entries hi hl, rfl⟩
  | rule r =>
    have hhead : ∃ k ∈ r.consequence, k.name = p := by
      have hcall : ∀ taken (k : Call), ((lowerCall taken k 0).1).signature? = some ⟨p, n⟩ →
          k.name = p := by
        intro taken k hk
        obtain ⟨_, ts, _, hts, _⟩ := lowerCall_spec taken k 0
        rw [hts, Term.signature_apply] at hk
        cases hk
        rfl
      simp only [itemClauses, ruleClauses] at hc
      split at hc
      · obtain ⟨k, hk, rfl⟩ := List.mem_map.mp hc
        exact ⟨k, hk, hcall _ k hsig⟩
      · obtain ⟨k, hk, hc⟩ := List.mem_flatMap.mp hc
        obtain ⟨a, _, rfl⟩ := List.mem_map.mp hc
        exact ⟨k, hk, hcall _ k hsig⟩
    obtain ⟨k, hk, rfl⟩ := hhead
    exact .inl ⟨⟨k.name, k.arity, .rule, k.span⟩, List.mem_map_of_mem hk, rfl⟩
  | query q =>
    rcases List.mem_cons.mp hc with rfl | hc
    · exact .inr ⟨q, rfl, rfl⟩
    · obtain ⟨a, _, rfl⟩ := List.mem_map.mp hc
      rw [queryClause, Clause.signature?, Term.signature_apply] at hsig
      cases hsig
      exact .inl ⟨_, List.mem_singleton_self _, rfl⟩

theorem other_clauses (h : s.Checked v program) (hi : i ∈ s.items)
    (happart : ∀ e ∈ entries i, e.Apart q.entry) (hq : .query q ∈ s.items) {c : Clause}
    (hc : c ∈ itemClauses i) :
    (∀ n, c.signature? ≠ some ⟨q.name, n⟩) ∧ ∀ n, Program.announced? c ≠ some (q.name, n) := by
  have hne : ∀ d, .definition d ∈ entries i → d.name ≠ q.name := fun d hd hname =>
    (happart _ hd d _ rfl rfl hname).2 rfl
  constructor
  · intro n hsig
    rcases h.signature_cases hi hc hsig with ⟨d, hd, hname⟩ | ⟨q', rfl, rfl⟩
    · exact hne d hd hname
    · have hname : "query" = q.name := congrArg Signature.name (Option.some.inj hsig)
      exact h.ne_query hq (List.mem_singleton_self _) hname.symm
  · intro n hann
    have hhead := Program.head_of_announced hann
    have hsig : c.signature? = some ⟨"query", 2⟩ := by rw [Clause.signature?, hhead]; rfl
    rcases h.signature_cases hi hc hsig with ⟨d, hd, hname⟩ | ⟨q', rfl, rfl⟩
    · exact h.ne_query hi hd hname
    · simp only [queryFact, Term.compound.injEq, List.cons.injEq, Term.atom.injEq] at hhead
      exact hne _ (List.mem_singleton_self _) hhead.2.1

/-- The items before and after a query define other names. -/
theorem split_items (h : s.Checked v program) (hq : .query q ∈ s.items) :
    ∃ before after, s.items = before ++ .query q :: after ∧
      ∀ i ∈ before ++ after, i ∈ s.items ∧ ∀ e ∈ entries i, e.Apart q.entry := by
  obtain ⟨before, after, hitems⟩ := List.append_of_mem hq
  refine ⟨before, after, hitems, fun i hi => ?_⟩
  have happart := h.sound.apart
  rw [hitems, List.flatMap_append, List.flatMap_cons, List.pairwise_append,
    List.pairwise_append] at happart
  obtain ⟨_, ⟨_, _, hafter⟩, hbefore⟩ := happart
  have hentry : q.entry ∈ entries (.query q) := List.mem_singleton_self _
  rcases List.mem_append.mp hi with hi | hi
  · refine ⟨by simp [hitems, hi], fun e he => hbefore e (List.mem_flatMap.mpr ⟨i, hi, he⟩) _ ?_⟩
    exact List.mem_append_left _ hentry
  · refine ⟨by simp [hitems, hi], fun e he =>
      symm (hafter _ hentry e (List.mem_flatMap.mpr ⟨i, hi, he⟩))⟩

/-- What is picked from the clauses of a script is what is picked from those of a query, if nothing
is picked from the clauses of other items. -/
theorem filterMap_clauses {α : Type} (h : s.Checked v program) (hq : .query q ∈ s.items)
    {pick : Clause → Option α}
    (hpick : ∀ c, (∀ n, c.signature? ≠ some ⟨q.name, n⟩) →
      (∀ n, Program.announced? c ≠ some (q.name, n)) → pick c = none) :
    program.clauses.filterMap pick = (queryClauses q).filterMap pick := by
  obtain ⟨before, after, hitems, hother⟩ := h.split_items hq
  have hnone : ∀ is : List Item, (∀ i ∈ is, i ∈ before ++ after) →
      (is.flatMap itemClauses).filterMap pick = [] := by
    intro is his
    refine List.filterMap_eq_nil_iff.mpr fun c hc => ?_
    obtain ⟨i, hi, hc⟩ := List.mem_flatMap.mp hc
    obtain ⟨hi, happart⟩ := hother i (his i hi)
    have hc := h.other_clauses hi happart hq hc
    exact hpick c hc.1 hc.2
  rw [h.clauses, hitems, List.flatMap_append, List.flatMap_cons,
    List.filterMap_append, List.filterMap_append, hnone before fun i hi =>
      List.mem_append_left _ hi, hnone after fun i hi => List.mem_append_right _ hi,
    List.nil_append, List.append_nil]
  rfl

theorem filter_signature (h : s.Checked v program) (hq : .query q ∈ s.items) :
    program.clauses.filter (fun c => c.signature? = some ⟨q.name, q.headVariables.length⟩) =
      q.body.alternatives.map (queryClause q.name q.headVariables) := by
  have hquery : q.name ≠ "query" := h.ne_query hq (List.mem_singleton_self _)
  rw [← List.filterMap_eq_filter, h.filterMap_clauses hq, queryClauses, List.filterMap_eq_filter,
    List.filter_cons_of_neg, List.filter_eq_self]
  · intro c hc
    obtain ⟨a, _, rfl⟩ := List.mem_map.mp hc
    simp [queryClause, Clause.signature?, Term.signature_apply]
  · simp [queryFact, Clause.signature?, Term.signature?, hquery.symm]
  · intro c hc _
    simp [hc]

theorem queryGoal?_query (h : s.Checked v program) (hq : .query q ∈ s.items) :
    program.queryGoal? q.name = some q.goal := by
  have hannounced : program.queries.find? (fun x => x.1 = q.name) =
      some (q.name, q.headVariables.length) := by
    have hfact : (Program.announced? (queryFact q.name q.headVariables.length)).filter
        (fun x => x.1 = q.name) =
        some (q.name, q.headVariables.length) := Option.filter_some_pos (by simp)
    rw [← List.head?_filter, Program.queries, List.filter_filterMap,
      h.filterMap_clauses hq, queryClauses, List.filterMap_cons]
    · simp only [hfact, List.head?_cons]
    · intro c _ hc
      cases hann : Program.announced? c with
      | none => rfl
      | some x =>
        refine Option.filter_some_neg (decide_eq_false fun hx => hc x.2 ?_)
        rw [hann, ← hx]
  have hclause : ∃ c,
      program.clauses.find? (fun c => c.signature? = some ⟨q.name, q.headVariables.length⟩) =
      some c ∧
      c.head = q.goal := by
    have hne := (h.readable _ hq).2
    rw [← List.head?_filter, h.filter_signature hq]
    cases halt : q.body.alternatives with
    | nil => exact (hne halt).elim
    | cons a as => exact ⟨_, rfl, rfl⟩
  obtain ⟨c, hc, hhead⟩ := hclause
  simp [Program.queryGoal?, hannounced, hc, hhead]

end Script.Checked

namespace Script.Compiled

variable {s : Script} {program : Program} {i : Item} {d : Definition}

theorem name_ne (h : s.Compiled program) (hi : i ∈ s.items) (hd : .definition d ∈ entries i)
    {x : String} (hx : x ∈ ["query", "not", "true", "fail", "false", "graph", "node", "edge"]) :
    d.name ≠ x := by
  rintro rfl
  have hknown := Compiler.containsName_standard 0 d.name (List.mem_append_left _ hx)
  rw [h.unknown hi hd] at hknown
  cases hknown

theorem shapeFact_signature_ne (h : s.Compiled program) (hi : i ∈ s.items)
    (hd : .definition d ∈ entries i) {g : Graph} {c : Clause} (hc : c ∈ Standard.shapeFacts g)
    (n : Nat) : c.signature? ≠ some ⟨d.name, n⟩ := by
  intro hsig
  obtain ⟨name, ids, hname, hids, rfl⟩ := Program.shapeFacts_flat hc
  rw [Clause.signature?, Program.head_fact hids, Term.signature_apply] at hsig
  have heq : name = d.name := congrArg Signature.name (Option.some.inj hsig)
  exact h.name_ne hi hd (by grind : name ∈ _) heq.symm

theorem isForeign_eq_false (h : s.Compiled program) (hi : i ∈ s.items)
    (hd : .definition d ∈ entries i) (g : Graph) (n : Nat) :
    (Standard.library g).isForeign ⟨d.name, n⟩ = false := by
  rw [Bool.eq_false_iff, ne_eq, Standard.isForeign_iff]
  intro hforeign
  have hmem := List.mem_map_of_mem (f := Signature.name) hforeign
  have hknown := Compiler.containsName_standard 0 d.name (List.mem_append_right _ hmem)
  rw [h.unknown hi hd] at hknown
  cases hknown

theorem clausesOf_query (h : s.Compiled program) {q : Query} (hq : .query q ∈ s.items) (g : Graph)
    (limits : Limits) :
    (program.engine g limits).clausesOf ⟨q.name, q.headVariables.length⟩ =
      q.body.alternatives.map (queryClause q.name q.headVariables) := by
  rw [Program.clausesOf_engine, h.filter_signature hq, List.append_left_eq_self,
    List.filter_eq_nil_iff]
  intro c hc hsig
  exact h.shapeFact_signature_ne hq (List.mem_singleton_self _) hc _ (of_decide_eq_true hsig)

theorem arity_query (h : s.Compiled program) {q : Query} (hq : .query q ∈ s.items) {g : Graph}
    {limits : Limits} {n : Nat} {c : Clause}
    (hc : c ∈ (program.engine g limits).clausesOf ⟨q.name, n⟩) : n = q.headVariables.length := by
  obtain ⟨hc, hsig⟩ := Program.mem_clausesOf_engine.mp hc
  have hclause := hc.resolve_left fun hc =>
    h.shapeFact_signature_ne hq (List.mem_singleton_self _) hc n hsig
  have hmem : c ∈ program.clauses.filterMap
      (Option.guard fun c => decide (c.signature? = some ⟨q.name, n⟩)) := by
    rw [List.filterMap_eq_filter]
    exact List.mem_filter.mpr ⟨hclause, decide_eq_true hsig⟩
  rw [h.filterMap_clauses hq, List.filterMap_eq_filter, List.mem_filter] at hmem
  · rcases List.mem_cons.mp hmem.1 with rfl | hc
    · have hname : "query" = q.name := congrArg Signature.name (Option.some.inj hsig)
      exact (h.name_ne hq (List.mem_singleton_self _) (by simp) hname.symm).elim
    · obtain ⟨a, _, rfl⟩ := List.mem_map.mp hc
      rw [queryClause, Clause.signature?, Term.signature_apply, List.length_map] at hsig
      exact congrArg Signature.arity (Option.some.inj hsig).symm
  · intro c hc _
    simp [hc]

end Script.Compiled

end GraphRules
