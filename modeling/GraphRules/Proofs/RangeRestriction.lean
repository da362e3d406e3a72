import GraphRules.Proofs.Conditions
import GraphRules.Proofs.ForeignAnswers
import GraphRules.Proofs.GroundCalls
import GraphRules.Proofs.QueryAnswers

/-! Range restriction. The check has the variables of consequences and of queries bound by calls,
and foreign predicates hold of constants only; so a solved call of an accepted script has no
variables left, and answers are constants. -/
namespace GraphRules

open Check Lowering Reference Search

namespace Predicate

def Binds (args : List Term) (o : Outcome) : Prop :=
  ∀ es, o.equations? = some es → ∀ t ∈ args, ∃ k : Constant, t = k.toTerm ∨ (t, k.toTerm) ∈ es

theorem Measured.binds {p : Predicate} (h : p.Measured) (g : Graph) (args : List Term) :
    Binds args (p.answer g args) := by
  intro es hes t ht
  rcases h.told hes with ⟨ks, rfl, -⟩ | ⟨ks, v, k, rfl, rfl, -⟩
  · obtain ⟨k, _, rfl⟩ := List.mem_map.mp ht
    exact ⟨k, .inl rfl⟩
  · rcases List.mem_append.mp ht with ht | ht
    · obtain ⟨k', _, rfl⟩ := List.mem_map.mp ht
      exact ⟨k', .inl rfl⟩
    · rw [List.mem_singleton.mp ht]
      exact ⟨k, .inr (by simp)⟩

end Predicate

theorem Standard.binding (g : Graph) : (library g).Binding := by
  intro s ts es hc
  rw [Library.call_eq] at hc
  obtain ⟨p, hp, hes⟩ := Option.bind_eq_some_iff.mp hc
  have hmem : p ∈ declarations.predicates := List.mem_reverse.mp (List.mem_of_find?_eq_some hp)
  exact (measured p hmem).binds g ts es hes

/-- With arguments, a name other than that of negation makes a call. -/
theorem Search.task_apply_of_isName {p : String} (hname : Script.IsName p) (hnot : p ≠ "not")
    {args : List Term} (hargs : args ≠ []) : task (.apply p args) = .call ⟨p, args.length⟩ := by
  have hsymbols := hname.not_mem_symbols
  simp only [List.mem_append, List.mem_cons, List.not_mem_nil, or_false, not_or] at hsymbols
  match args, hargs with
  | [a], _ => simp [Term.apply, task_one, hnot]
  | [a, b], _ => simp [Term.apply, task_two, hsymbols]
  | a :: b :: c :: args, _ => exact task_other p (by simp) (by simp)

theorem Literal.mem_callsAll {c : Call} {a : List Literal} (h : .call c ∈ a) :
    c ∈ Literal.callsAll a := by
  induction a with
  | nil => cases h
  | cons l a ih =>
    rw [Literal.callsAll, List.mem_append]
    rcases List.mem_cons.mp h with rfl | h
    · exact .inl (by simp [Literal.calls])
    · exact .inr (ih h)

structure Script.Restricted (s : Script) (program : Program) : Prop extends s.Compiled program where
  bound : ∀ q, .query q ∈ s.items → q.Bound
  names : ∀ i ∈ s.items, ∀ f, condition? i = some f → ∀ c ∈ f.calls, IsName c.name ∧ c.name ≠ "not"

theorem Script.restricted_of_compile {source : String} {s : Script} {program : Program}
    {threshold : Nat} (hparse : Script.parse source = .ok s)
    (hcompile : (Compiler.standard threshold).compile source = .ok program)
    (hwarnings : ∀ w ∈ program.warnings, w.code ≠ "W004") (hnot : "not" ∉ referencedNames s.items) :
    s.Restricted program := by
  obtain ⟨hok, _, hkept⟩ := Compiler.compile_eq_ok hparse hcompile
  refine ⟨compiled_of_compile hparse hcompile,
    fun q hq => query_bound_of_check hok (fun w hw => hwarnings w (hkept w hw)) hq,
    fun i hi f hf c hc => ⟨?_, ?_⟩⟩
  · exact (yields_condition.parse hparse i hi f hf).names c hc
  · rintro hname
    refine hnot (List.mem_flatMap.mpr ⟨i, hi, ?_⟩)
    rw [hf, Option.map_some, Option.getD_some, Formula.names_eq_map_calls]
    exact List.mem_map.mpr ⟨c, hc, hname⟩

namespace Script.Restricted

variable {s : Script} {program : Program} {head : List ArgKind} {a : List Literal}

theorem task_call (h : s.Restricted program) {p : String} (hd : s.Derives p head a) {c : Call}
    (hc : .call c ∈ a) {args : List Term} (hargs : args ≠ []) :
    task (.apply c.name args) = .call ⟨c.name, args.length⟩ := by
  rcases hd.condition with rfl | ⟨i, hi, f, hf, ha⟩
  · cases hc
  · have hmem : c ∈ f.calls := Formula.callsAll_subset ha (Literal.mem_callsAll hc)
    obtain ⟨hname, hnot⟩ := h.names i hi f hf c hmem
    exact task_apply_of_isName hname hnot hargs

theorem mem_callVars (h : s.Restricted program) {p : String} {ws : List String} {c : Clause}
    (hd : s.Derives p head a) (hlow : c.Lowers p head a ws) {v : Var}
    (hv : v ∈ c.head.occurrences) : v ∈ callVars c.body := by
  obtain ⟨hwild, hbound⟩ := hd.bound h.sound.rules h.bound
  rw [hlow.head_eq, Term.occurrences_apply] at hv
  obtain ⟨hscope, hhead⟩ := (ArgKind.mem_occurrences hwild v).mp hv
  have hmem := mem_callVars_of_boundBy hlow.body (fun c hc args hargs =>
    h.task_call hd hc hargs) (hbound v.name hhead)
  rwa [← hscope] at hmem

theorem clause_grounding (h : s.Restricted program) {i : Item} (hi : i ∈ s.items) {c : Clause}
    (hc : c ∈ itemClauses i) {v : Var} (hv : v ∈ c.head.occurrences) : v ∈ callVars c.body := by
  cases i with
  | labels d =>
    obtain ⟨l, _, rfl⟩ := List.mem_map.mp hc
    have htask : task (.compound d.kind.predicate [.named "X"]) = .call ⟨d.kind.predicate, 1⟩ := by
      rw [task_one]
      cases d.kind <;> rfl
    exact ⟨_, List.mem_cons_self, ⟨_, htask⟩, hv⟩
  | rule r =>
    simp only [itemClauses, ruleClauses_eq] at hc
    obtain ⟨k, hk, hc⟩ := List.mem_flatMap.mp hc
    obtain ⟨a, ha, rfl⟩ := List.mem_map.mp hc
    obtain ⟨ws, hlow⟩ := ruleClause_lowers ((h.sound.rules r hi).plain k hk) a
    exact h.mem_callVars (.inl ⟨r, hi, k, hk, rfl, rfl, ha⟩) hlow hv
  | query q =>
    rcases List.mem_cons.mp hc with rfl | hc
    · cases hv
    · obtain ⟨a, ha, rfl⟩ := List.mem_map.mp hc
      obtain ⟨ws, hlow⟩ := queryClause_lowers (h.bound q hi) ha
      exact h.mem_callVars (.inr ⟨q, hi, rfl, rfl, ha⟩) hlow hv

theorem grounding (h : s.Restricted program) (g : Graph) (limits : Limits) :
    (program.engine g limits).Grounding := by
  refine ⟨Program.functionless h.clauses g limits, fun r c hc v hv => ?_, Standard.binding g⟩
  rcases (Program.mem_clausesOf_engine.mp hc).1 with hfact | hc
  · obtain ⟨name, ids, _, hids, rfl⟩ := Program.shapeFacts_flat hfact
    rw [Program.head_fact hids, Term.occurrences_apply, Term.occurrencesList_atoms] at hv
    cases hv
  · rw [h.clauses] at hc
    obtain ⟨i, hi, hc⟩ := List.mem_flatMap.mp hc
    exact h.clause_grounding hi hc hv

end Script.Restricted

variable {p : String × Term}

theorem Solution.mem_insert {name : String} {t : Term} {bs : List (String × Term)}
    (h : p ∈ insert name t bs) : p = (name, t) ∨ p ∈ bs := by
  induction bs with
  | nil => exact .inl (List.mem_singleton.mp h)
  | cons q bs ih =>
    obtain ⟨n, u⟩ := q
    simp only [insert] at h
    split_ifs at h
    · rcases List.mem_cons.mp h with h | h
      · exact .inl h
      · exact .inr (List.mem_cons_of_mem _ h)
    · exact List.mem_cons.mp h
    · rcases List.mem_cons.mp h with h | h
      · exact .inr (h ▸ List.mem_cons_self)
      · exact (ih h).imp_right (List.mem_cons_of_mem _)

theorem Solution.mem_ofVariables {vs : List Var} {b : Bindings}
    (h : p ∈ (ofVariables vs b).bindings) : ∃ v ∈ vs, p = (v.name, b.resolve (.var v)) := by
  have hfold : ∀ (vs : List Var) (bs : List (String × Term)),
      p ∈ vs.foldl (fun bs v => insert v.name (b.resolve (.var v)) bs) bs →
      p ∈ bs ∨ ∃ v ∈ vs, p = (v.name, b.resolve (.var v)) := by
    intro vs
    induction vs with
    | nil => exact fun bs h => .inl h
    | cons v vs ih =>
      intro bs h
      rcases ih _ h with h | ⟨w, hw, hp⟩
      · rcases mem_insert h with h | h
        · exact .inr ⟨v, by simp, h⟩
        · exact .inl h
      · exact .inr ⟨w, by simp [hw], hp⟩
  exact (hfold vs [] h).resolve_left (by simp)

/-- Answers to the queries of an accepted script are constants, for all of the variables they show.
So are the arguments of every call that was solved on the way to a state of the search, in nested
searches too. -/
theorem query_answers_constant {source : String} {script : Script} {program : Program}
    {threshold : Nat} {q : Query} (hparse : Script.parse source = .ok script)
    (hcompile : (Compiler.standard threshold).compile source = .ok program)
    (hwarnings : ∀ w ∈ program.warnings, w.code ≠ "W004")
    (hnot : "not" ∉ referencedNames script.items) (hq : .query q ∈ script.items) (g : Graph)
    (limits : Limits) : ∃ goal, program.queryGoal? q.name = some goal ∧
      (∀ budget n, ∀ a ∈ (Solutions.take (program.engine g limits) budget n (.ofGoal goal)).1,
        (∃ cs, a = q.answer cs ∧ cs.length = q.headVariables.length) ∧
          ∀ p ∈ a.bindings, ∃ k : Constant, p.2 = k.toTerm) ∧
      (∀ outer r, Reachable (program.engine g limits) goal outer r →
        Explains (program.engine g limits) goal outer r.bindings r.goals) ∧
      ∀ outer b items solved, Course (program.engine g limits) goal outer b items solved →
        ∀ c ∈ solved, ∀ t ∈ c.args, ∃ k : Constant, b.resolve t = k.toTerm := by
  have h := Script.restricted_of_compile hparse hcompile hwarnings hnot
  have hprog := h.grounding g limits
  have htame : q.goal.Tame := .call q.name q.all_isFlat_named
  refine ⟨q.goal, h.queryGoal?_query hq, fun budget n a ha => ?_, fun _ _ hr => hr.explained.goals,
    fun _ _ _ _ hcourse c hc t ht => hcourse.resolve_solved hprog htame hc ht⟩
  obtain ⟨r, hr, hnil, rfl⟩ := (Solutions.isReachable_ofGoal _ q.goal).mem_take ha
  have hvalue : ∀ x ∈ q.headVariables, ∃ k : Constant,
      r.bindings.resolve (.var ⟨x, 0⟩) = k.toTerm := by
    intro x hx
    refine hr.resolve_goal hprog htame (h.task_goal hq) hnil ?_
    rw [Query.goal, Term.args_apply]
    exact List.mem_map_of_mem hx
  choose! ρ hρ using hvalue
  refine ⟨⟨_, Query.ofVariables_eq_answer hρ, List.length_map _⟩, fun p hp => ?_⟩
  obtain ⟨v, hv, rfl⟩ := Solution.mem_ofVariables hp
  rw [q.vars_ofGoal] at hv
  obtain ⟨x, hx, rfl⟩ := List.mem_map.mp hv
  exact ⟨ρ x, hρ x (List.mem_filter.mp hx).1⟩

theorem Solutions.take_of_collect {e : Engine} {budget n : Nat} {s s' : Solutions}
    {as : List Solution} (h : collect? e budget n s = some (as, s')) :
    (take e budget n s).1 = as := by
  induction n generalizing s as with
  | zero => cases h
  | succ n ih =>
    simp only [collect?, take] at h ⊢
    split at h
    · cases h
    · cases hn : s.next e budget with
      | mk a? s₁ =>
        rw [hn] at h
        cases a? with
        | none => cases h; rfl
        | some a =>
          obtain ⟨⟨rest, s₂⟩, hrest, heq⟩ := Option.map_eq_some_iff.mp h
          cases heq
          exact congrArg (a :: ·) (ih hrest)

def loadSource : String :=
  "node labels: hub.\nspare(z, 0).\nhub(X), degree(X, D), not edge(X, X) -> load(X, D).\n" ++
    "query loads: load(X, D); spare(X, D).\n"

def loadGraph : Graph :=
  { nodes := [⟨"a", [⟨"label", .text "hub"⟩]⟩, ⟨"b", []⟩, ⟨"c", [⟨"label", .text "hub"⟩]⟩],
    edges := [⟨"e", "a", "b", []⟩, ⟨"f", "c", "a", []⟩] }

theorem query_answers_constant_loads :
    ∃ script program q goal as s, Script.parse loadSource = .ok script ∧
      (Compiler.standard 16).compile loadSource = .ok program ∧
      (∀ w ∈ program.warnings, w.code ≠ "W004") ∧ "not" ∉ referencedNames script.items ∧
      .query q ∈ script.items ∧ program.queryGoal? q.name = some goal ∧
      Solutions.collect? (program.engine loadGraph {}) 100 10 (.ofGoal goal) = some (as, s) ∧
      as.length = 3 ∧ ∀ a ∈ as, (∃ cs, a = q.answer cs ∧ cs.length = q.headVariables.length) ∧
      ∀ p ∈ a.bindings, ∃ k : Constant, p.2 = k.toTerm := by
  obtain ⟨script, program, q, goal, as, s, hparse, hcompile, hwarnings, hnot,
    hq, hgoal, hc, hlen, -⟩ :=
    exists_answers_of_checks loadSource "loads" (fun s => decide ("not" ∉ referencedNames s.items))
      loadGraph 3
      (by decide +kernel) (by decide +kernel)
  have hnot := of_decide_eq_true hnot
  obtain ⟨goal', hgoal', hanswers, _⟩ :=
    query_answers_constant hparse hcompile hwarnings hnot hq loadGraph {}
  cases hgoal.symm.trans hgoal'
  refine ⟨script, program, q, goal, as, s, hparse, hcompile, hwarnings, hnot, hq, hgoal,
    hc, hlen, fun a ha => ?_⟩
  exact hanswers 100 10 a (Solutions.take_of_collect hc ▸ ha)

end GraphRules
