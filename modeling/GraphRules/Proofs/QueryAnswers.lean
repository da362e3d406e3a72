import GraphRules.Proofs.AnswerSequence
import GraphRules.Proofs.Derivations

/-! The answers to a query of a plain script, in an interpretation that agrees with the clauses of
the script. Every answer shows a tuple of the query, and when the search comes to its end and
nothing was cut, every tuple is shown. -/
namespace GraphRules

open Reference Search

theorem eraseDups_of_nodup {α : Type} [BEq α] [LawfulBEq α] {l : List α} (h : l.Nodup) :
    l.eraseDups = l := by
  induction l with
  | nil => rfl
  | cons a l ih =>
    rw [List.nodup_cons] at h
    have hfilter : l.filter (fun b => !b == a) = l := List.filter_eq_self.mpr fun b hb => by
      have hne : b ≠ a := fun e => h.1 (e ▸ hb)
      simp [hne]
    rw [List.eraseDups_cons, hfilter, ih h.2]

def isShown (x : String) : Bool := !(x.toList.head? = some '_')

namespace Query

/-- The answer that shows a tuple of a query: its values for the variables that are shown. -/
def answer (q : Query) (cs : List Constant) : Solution :=
  ⟨((q.headVariables.zip cs).filter fun p => isShown p.1).foldl (fun bs p =>
    Solution.insert p.1 p.2.toTerm bs) []⟩

theorem nodup_headVariables (q : Query) : q.headVariables.Nodup := nodup_eraseDups _

theorem occurrences_goal (q : Query) :
    q.goal.occurrences = q.headVariables.map fun x => ⟨x, 0⟩ := by
  rw [goal, Term.occurrences_apply]
  induction q.headVariables with
  | nil => rfl
  | cons x xs ih => exact congrArg (⟨x, 0⟩ :: ·) ih

theorem scope_goal {q : Query} {v : Var} (hv : v ∈ q.goal.occurrences) : v.scope = 0 := by
  rw [q.occurrences_goal] at hv
  obtain ⟨x, _, rfl⟩ := List.mem_map.mp hv
  rfl

theorem all_isFlat_named (q : Query) : (q.headVariables.map Term.named).all Term.isFlat := by
  rw [List.all_map]
  exact List.all_eq_true.mpr fun _ _ => rfl

theorem vars_ofGoal (q : Query) :
    (Solutions.ofGoal q.goal).vars = (q.headVariables.filter isShown).map fun x => ⟨x, 0⟩ := by
  have hvars : q.goal.vars = q.headVariables.map fun x => ⟨x, 0⟩ := by
    rw [Term.vars, q.occurrences_goal]
    refine eraseDups_of_nodup (q.nodup_headVariables.map fun x y h => ?_)
    exact congrArg Var.name h
  rw [Solutions.ofGoal, hvars, List.filter_map]
  rfl

/-- Bindings that fix the variables of a query show its tuple. -/
theorem ofVariables_eq_answer {q : Query} {b : Bindings} {ρ : Assignment}
    (h : ∀ x ∈ q.headVariables, b.resolve (.var ⟨x, 0⟩) = (ρ x).toTerm) :
    Solution.ofVariables (Solutions.ofGoal q.goal).vars b = q.answer (q.headVariables.map ρ) := by
  have hzip : q.headVariables.zip (q.headVariables.map ρ) = q.headVariables.map fun x =>
    (x, ρ x) := by
    rw [List.zip_eq_zipWith, List.zipWith_map_right, List.zipWith_self]
  rw [Solution.ofVariables, q.vars_ofGoal, answer, hzip, List.filter_map,
    List.foldl_map, List.foldl_map]
  refine congrArg Solution.mk (List.foldl_ext _ _ _ fun bs x hx => ?_)
  rw [h x (List.mem_filter.mp hx).1]

theorem exists_map_eq {l : List String} (hl : l.Nodup) {cs : List Constant}
    (hlen : cs.length = l.length) : ∃ ρ : Assignment, l.map ρ = cs := by
  induction l generalizing cs with
  | nil => exact ⟨fun _ => default, (List.length_eq_zero_iff.mp hlen).symm⟩
  | cons x l ih =>
    cases cs with
    | nil => cases hlen
    | cons c cs =>
      obtain ⟨hx, hl⟩ := List.nodup_cons.mp hl
      obtain ⟨ρ, rfl⟩ := ih hl (Nat.succ.inj hlen)
      refine ⟨Function.update ρ x c, ?_⟩
      rw [List.map_cons, Function.update_self, List.cons.injEq]
      exact ⟨rfl, List.map_congr_left fun y hy =>
        Function.update_of_ne (ne_of_mem_of_not_mem hy hx) _ _⟩

end Query

/-- An answer whose variables have fixed values shows these values, however scopes are counted. -/
theorem Reference.Copied.resolve_eq {m n m' n' : Nat} {b c c' : Bindings}
    (h : Copied Same m n b m' c n' c') {θ : Valuation} (hadmits : c'.Admits θ) {x : String}
    (hfixes : c'.Fixes ⟨x, 0⟩) : c.resolve (.var ⟨x, 0⟩) = (θ ⟨x, 0⟩).toTerm := by
  obtain ⟨R, hR, hlinked⟩ := h.linked
  have hrel :=
    hlinked.resolve (show (Term.var ⟨x, 0⟩).Rel R (.var ⟨x, 0⟩) from hR _ _ ⟨rfl, rfl⟩) rfl
  rw [Bindings.resolve_of_flat hlinked.right rfl, hfixes.walk hlinked.right hadmits] at hrel
  revert hrel
  cases θ ⟨x, 0⟩ with
  | atom a => cases c.resolve (.var ⟨x, 0⟩) <;> simp [Constant.toTerm, Term.Rel]
  | number y => cases c.resolve (.var ⟨x, 0⟩) <;> simp [Constant.toTerm, Term.Rel]

namespace Script.Compiled

variable {s : Script} {program : Program} {q : Query}

theorem task_goal (h : s.Compiled program) (hq : .query q ∈ s.items) :
    task q.goal = .call ⟨q.name, q.headVariables.length⟩ := by
  have hentry : .definition ⟨q.name, q.headVariables.length, .query,
      q.nameSpan⟩ ∈ Check.entries (.query q) :=
    List.mem_singleton_self _
  have hreserved : q.name ∉ ["true", "fail", "false", "not"] :=
    fun hmem => h.name_ne hq hentry (by grind) rfl
  have htask :=
    Search.task_apply hreserved (h.readable _ hq).1.not_mem_symbols (q.headVariables.map .named)
  rwa [List.length_map] at htask

theorem isForeign_goal (h : s.Compiled program) (hq : .query q ∈ s.items) (g : Graph) (n : Nat) :
    (Standard.library g).isForeign ⟨q.name, n⟩ = false :=
  h.isForeign_eq_false hq (List.mem_singleton_self _) g n

end Script.Compiled

namespace Script.Accepted

variable {s : Script} {program : Program} {negations : Bool} {g : Graph}
  {limits : Limits} {I : Interpretation} {q : Query}

theorem query_correct (h : s.Accepted program negations)
    (hsane : Sane (program.engine g limits) (s.isDerived ·) negations I)
    (hq : .query q ∈ s.items) (k : Nat) :
    Correct I negations 0 0 .empty ∅ [q.goal]
      (solveGoal .perBranch (program.engine g limits) k q.goal) := by
  refine calls_correct hsane k 0 0 ∅ ∅ .empty q.name (q.headVariables.map .named)
    0 (h.isDerived_query hq)
    q.all_isFlat_named (fun v hv => ?_) ?_
  · rw [← Term.occurrences_apply q.name] at hv
    exact Query.scope_goal hv
  · exact ⟨Bindings.tidy_empty, Nat.le_refl _, Bindings.ignores_empty _, nofun,
      Bindings.ignores_empty _⟩

theorem holds_goal (h : s.Accepted program negations) (hq : .query q ∈ s.items) {ρ : Assignment}
    {bound : Set String} : I.Holds ρ bound [q.goal] ↔ I q.name (q.headVariables.map ρ) := by
  have htask := h.task_apply (h.isDerived_query hq) (q.headVariables.map .named)
  rw [Query.goal, Interpretation.holds_call htask, Term.args_apply, List.map_map]
  exact and_iff_left (by simp)

theorem fixes_goal (h : s.Accepted program negations) (hq : .query q ∈ s.items) {n : Nat}
    {b : Bindings} (hr : Reached I 0 0 .empty ∅ [q.goal] n b) {x : String}
    (hx : x ∈ q.headVariables) : b.Fixes ⟨x, 0⟩ := by
  have htask := h.task_apply (h.isDerived_query hq) (q.headVariables.map .named)
  refine hr.fixes _ ⟨q.goal, List.mem_singleton_self _, ⟨_, htask⟩, ?_⟩
  rw [q.occurrences_goal]
  exact List.mem_map.mpr ⟨x, hx, rfl⟩

theorem solveGoal_alike (h : s.Accepted program negations) (q : Query) (g : Graph)
    (limits : Limits) (k : Nat) :
    AlikeFrom .shared .perBranch Same 0 0 .empty
      (solveGoal .shared (program.engine g limits) k q.goal)
      (solveGoal .perBranch (program.engine g limits) k q.goal) :=
  Reference.solveGoal_alike Counting.plain_shared Counting.plain_perBranch
    (Program.functionless h.clauses g limits) (.call _ q.all_isFlat_named)
    (fun _ => Query.scope_goal) k

/-- Every answer shows a tuple of the query. With negations, this takes a search without a cut. -/
theorem answer_sound (h : s.Accepted program negations)
    (hsane : Sane (program.engine g limits) (s.isDerived ·) negations I) (hq : .query q ∈ s.items)
    {k : Nat}
    (hcut : negations = false ∨
      (solveGoal .shared (program.engine g limits) k q.goal).isCut = false) {p : Nat × Bindings}
    (hp : p ∈ (solveGoal .shared (program.engine g limits) k q.goal).answers) :
    ∃ cs, I q.name cs ∧ .ofVariables (Solutions.ofGoal q.goal).vars p.2 = q.answer cs := by
  have halike := h.solveGoal_alike q g limits k
  obtain ⟨p', hp', hcopied⟩ := exists_of_mem_left halike.answers hp
  rw [halike.isCut] at hcut
  have hr := (h.query_correct hsane hq k).sound.of_mem hcut hp'
  have hadmits := Bindings.admits_complete hr.tidy default
  refine ⟨q.headVariables.map (inScope 0 (p'.2.complete default)),
    (h.holds_goal hq).mp (hr.holds _ hadmits), ?_⟩
  exact Query.ofVariables_eq_answer fun x hx => hcopied.resolve_eq hadmits (h.fixes_goal hq hr hx)

/-- When the search comes to its end and nothing was cut, every tuple of the query is shown. -/
theorem answer_complete (h : s.Accepted program negations)
    (hsane : Sane (program.engine g limits) (s.isDerived ·) negations I) (hq : .query q ∈ s.items)
    {k : Nat} (hends : (solveGoal .shared (program.engine g limits) k q.goal).ends)
    (hcut : (solveGoal .shared (program.engine g limits) k q.goal).isCut = false)
    {cs : List Constant} (hcs : I q.name cs) :
    ∃ p ∈ (solveGoal .shared (program.engine g limits) k q.goal).answers,
      .ofVariables (Solutions.ofGoal q.goal).vars p.2 = q.answer cs := by
  obtain ⟨c, hc, _⟩ := (hsane.meaning q.name cs (h.isDerived_query hq)).mp hcs
  obtain ⟨ρ, rfl⟩ := Query.exists_map_eq q.nodup_headVariables (h.arity_query hq hc)
  have halike := h.solveGoal_alike q g limits k
  have hcorrect := h.query_correct hsane hq k
  rw [halike.ends] at hends
  rw [halike.isCut] at hcut
  have hholds : I.Holds (inScope 0 ρ.toValuation) ∅ [q.goal] := (h.holds_goal hq).mpr hcs
  obtain ⟨p', hp', θ, hadmits, hagree⟩ :=
    hcorrect.complete _ (Bindings.admits_empty _) hholds hends hcut
  have hr := hcorrect.sound.of_mem (.inr hcut) hp'
  obtain ⟨p, hp, hcopied⟩ := exists_of_mem_left halike.answers.flip hp'
  refine ⟨p, hp, Query.ofVariables_eq_answer fun x hx => ?_⟩
  rw [hcopied.resolve_eq hadmits (h.fixes_goal hq hr hx), hagree ⟨x, 0⟩ (Nat.le_refl _)]
  rfl

end Script.Accepted

theorem exists_ok_of_any {ε α : Type} {r : Except ε α} {P : α → Bool} (h : r.toOption.any P) :
    ∃ x, r = .ok x ∧ P x := by
  cases r with
  | error e => cases h
  | ok x => exact ⟨x, rfl, h⟩

def Item.query? : Item → Option Query
  | .query q => some q
  | _ => none

theorem Script.exists_query_of_any {s : Script} {P : Query → Bool}
    (h : s.items.any fun i => i.query?.any P) : ∃ q, .query q ∈ s.items ∧ P q := by
  obtain ⟨i, hi, h⟩ := List.any_eq_true.mp h
  cases i with
  | labels d => cases h
  | rule r => cases h
  | query q => exact ⟨q, hi, h⟩

def lineGraph : Graph :=
  { nodes := [⟨"a", []⟩, ⟨"b", []⟩, ⟨"c", []⟩],
    edges := [⟨"e", "a", "b", []⟩, ⟨"f", "b", "c", []⟩] }

/-- A script with a query that has so many answers on a graph, from what can be computed. -/
theorem exists_answers_of_checks (source name : String) (P : Script → Bool) (g : Graph) (n : Nat)
    (hscript : (Script.parse source).toOption.any fun s => P s && s.items.any fun i =>
    i.query?.any
    (·.name = name))
    (hprogram : ((Compiler.standard 16).compile source).toOption.any fun p =>
      p.warnings.all (fun w => w.code ≠ "W004") && (p.queryGoal? name).any fun goal =>
        (Solutions.collect? (p.engine g {}) 100 10 (.ofGoal goal)).any fun r =>
          r.1.length = n && !r.2.depthExceeded && decide (r.2.run.tries < 2 ^ 32)) :
    ∃ script program q goal as s, Script.parse source = .ok script ∧
      (Compiler.standard 16).compile source = .ok program ∧
      (∀ w ∈ program.warnings, w.code ≠ "W004") ∧ P script ∧ .query q ∈ script.items ∧
      program.queryGoal? q.name = some goal ∧
      Solutions.collect? (program.engine g {}) 100 10 (.ofGoal goal) = some (as, s) ∧
      as.length = n ∧ s.depthExceeded = false ∧ s.run.tries < 2 ^ 32 := by
  obtain ⟨script, hparse, hscript⟩ := exists_ok_of_any hscript
  obtain ⟨program, hcompile, hprogram⟩ := exists_ok_of_any hprogram
  obtain ⟨hP, hquery⟩ := Bool.and_eq_true_iff.mp hscript
  obtain ⟨hwarnings, hgoal⟩ := Bool.and_eq_true_iff.mp hprogram
  obtain ⟨goal, hgoal, hrun⟩ := (Option.any_eq_true _ _).mp hgoal
  obtain ⟨⟨as, s⟩, hc, hlen⟩ := (Option.any_eq_true _ _).mp hrun
  obtain ⟨hlen, htries⟩ := Bool.and_eq_true_iff.mp hlen
  obtain ⟨hlen, hcut⟩ := Bool.and_eq_true_iff.mp hlen
  obtain ⟨q, hq, hname⟩ := Script.exists_query_of_any hquery
  exact ⟨script, program, q, goal, as, s, hparse, hcompile, by simpa using hwarnings, hP, hq,
    of_decide_eq_true hname ▸ hgoal, hc, of_decide_eq_true hlen, by simpa using hcut,
    of_decide_eq_true htries⟩

end GraphRules
