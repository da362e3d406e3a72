import GraphRules.Proofs.Evaluation
import GraphRules.Proofs.LongRuns
import GraphRules.Proofs.LoweredCopies
import GraphRules.Proofs.QueryAnswers
import GraphRules.Proofs.VariantAnswers

/-! A query by its name and its formula as a goal of its own. The name is solved by clauses, one for
each alternative of the formula; the formula is solved as it stands, with its groups. Both have the
same answers, if clauses may be nested deeper by one for the name. -/
namespace GraphRules

open Lowering Reference Search

mutual

theorem Literal.visible_subset : ∀ l : Literal, l.visible ⊆ l.vars
  | .call _ => List.Subset.refl _
  | .negated _ _ => List.nil_subset _
  | .compare _ => List.Subset.refl _
  | .group f => Formula.visible_subset f

theorem Formula.visible_subset : ∀ f : Formula, f.visible ⊆ f.vars
  | .mk ds _ => Formula.visibleAll_subset ds

theorem Formula.visibleAll_subset :
    ∀ ds : List (List Literal), Formula.visibleAll ds ⊆ Formula.varsAll ds
  | [] => List.Subset.refl _
  | c :: cs =>
    List.append_subset.mpr ⟨List.subset_append_of_subset_left _ (Literal.visibleAll_subset c),
      List.subset_append_of_subset_right _ (Formula.visibleAll_subset cs)⟩

theorem Literal.visibleAll_subset : ∀ ls : List Literal, Literal.visibleAll ls ⊆ Literal.varsAll ls
  | [] => List.Subset.refl _
  | l :: ls =>
    List.append_subset.mpr ⟨List.subset_append_of_subset_left _ (Literal.visible_subset l),
      List.subset_append_of_subset_right _ (Literal.visibleAll_subset ls)⟩

end

theorem Lowering.Numbered.not_mem_shown {taken : List String} {n n' : Nat} {ws : List String}
    (h : Numbered taken n n' ws) {w : String} (hw : w ∈ ws) (xs : List String) :
    w ∉ xs.filter isShown := by
  obtain ⟨k, _, _, rfl⟩ := h.range w hw
  simp [isShown, wildcardName]

theorem Program.halts {s : Script} {p : Program} (hp : p.clauses = s.items.flatMap itemClauses)
    (g : Graph) (limits : Limits) : Halts (p.engine g limits) :=
  ⟨functionless hp g limits, fun n _ _ hb hgs => exists_ends .perBranch hp g limits n hb hgs⟩

/-- Variables match the head of a fresh copy of a clause that has them as arguments, and stand for
those of the copy. -/
theorem Bindings.exists_unifyAll_copy {xs : List String} (hxs : xs.Nodup) {b : Bindings}
    (hb : b.Tidy) (hfree : ∀ x ∈ xs, b.find? ⟨x, 0⟩ = none)
    (hkeys : ∀ v, b.find? v ≠ none → v.scope = 0) :
    ∃ b', unifyAll matchFlat b (xs.map .named) (Term.renameList 1 (xs.map .named)) = some b' ∧
      b'.Tidy ∧ (∀ x ∈ xs, b'.find? ⟨x, 0⟩ = some (.var ⟨x, 1⟩)) ∧ ∀ v, b'.find? v ≠ none →
      v.scope = 0 := by
  induction xs generalizing b with
  | nil => exact ⟨b, rfl, hb, by simp, hkeys⟩
  | cons x xs ih =>
    obtain ⟨hx, hxs⟩ := List.nodup_cons.mp hxs
    have hx₀ : b.find? ⟨x, 0⟩ = none := hfree x (by simp)
    have hx₁ : b.find? ⟨x, 1⟩ = none := by
      by_contra hne
      exact Nat.one_ne_zero (hkeys _ hne)
    have hbind := hb.bind hx₀ (u := .var ⟨x, 1⟩) rfl (by simp) (by rintro w ⟨⟩; exact hx₁)
    have hfind := Bindings.find?_bind hx₀ (.var ⟨x, 1⟩)
    have hmatch : b.matchFlat (.named x) ((Term.named x).rename 1) =
        some (b.bind ⟨x, 0⟩ (.var ⟨x, 1⟩)) := by
      simp [matchFlat, Term.named, Term.rename, walk_unbound b hx₀, walk_unbound b hx₁]
    obtain ⟨b', hu, htidy, hall, hkeys'⟩ := ih hxs hbind
      (fun y hy => by
        have hne : y ≠ x := fun e => hx (e ▸ hy)
        simp [hfind, hne, hfree y (by simp [hy])])
      (fun v hv => by
        rw [hfind] at hv
        split at hv
        · next hv' => rw [hv']
        · exact hkeys v hv)
    have hext := (hbind.unifyAll (by simp [Term.named, Term.isFlat])
      (by rw [Term.all_isFlat_renameList]; simp [Term.named, Term.isFlat]) hu).2
    refine ⟨b', ?_, htidy, List.forall_mem_cons.mpr ⟨hext _ _ (by simp [hfind]), hall⟩, hkeys'⟩
    simpa [unifyAll, Term.renameList, hmatch] using hu

/-- How the variables of the clause of an alternative go with those of the whole formula: the ones
that were written go with themselves, and names of wildcards with those in the same place. -/
def Corresponds (xs ws ws' : List String) (v w : Var) : Prop :=
  v.scope = 1 ∧ w.scope = 0 ∧
    (v.name = w.name ∧ v.name ∈ xs ∨ ∃ i : Nat, ws[i]? = some v.name ∧ ws'[i]? = some w.name)

section Corresponds

variable {xs ws ws' : List String}

theorem biUnique_corresponds (hws : ws.Nodup) (hws' : ws'.Nodup) (hfree : ∀ w ∈ ws, w ∉ xs)
    (hfree' : ∀ w ∈ ws', w ∉ xs) : Relator.BiUnique (Corresponds xs ws ws') := by
  have hindex : ∀ {l : List String} {i j : Nat} {x : String}, l.Nodup → l[i]? = some x →
      l[j]? = some x → i = j := by
    intro l i j x hl hi hj
    exact (List.getElem?_inj (List.getElem?_eq_some_iff.mp hi).1 hl).mp (hi.trans hj.symm)
  constructor
  · rintro ⟨x, _⟩ ⟨y, _⟩ ⟨z, _⟩ ⟨rfl, rfl, hx⟩ ⟨rfl, _, hy⟩
    rcases hx with ⟨rfl, hx⟩ | ⟨i, hx, hz⟩ <;> rcases hy with ⟨rfl, hy⟩ | ⟨j, hy, hz'⟩
    · rfl
    · exact (hfree' _ (List.mem_of_getElem? hz') hx).elim
    · exact (hfree' _ (List.mem_of_getElem? hz) hy).elim
    · cases hindex hws' hz hz'
      cases hx.symm.trans hy
      rfl
  · rintro ⟨z, _⟩ ⟨x, _⟩ ⟨y, _⟩ ⟨rfl, rfl, hx⟩ ⟨_, rfl, hy⟩
    rcases hx with ⟨rfl, hx⟩ | ⟨i, hz, hx⟩ <;> rcases hy with ⟨rfl, hy⟩ | ⟨j, hz', hy⟩
    · rfl
    · exact (hfree _ (List.mem_of_getElem? hz') hx).elim
    · exact (hfree _ (List.mem_of_getElem? hz) hy).elim
    · cases hindex hws hz hz'
      cases hx.symm.trans hy
      rfl

theorem paired_corresponds (hlen : ws.length = ws'.length) :
    Paired (Corresponds xs ws ws') 1 ws ws' := by
  refine List.forall₂_iff_get.mpr ⟨hlen, fun i h h' => ⟨rfl, rfl, .inr ⟨i, ?_, ?_⟩⟩⟩
  · simp
  · simp

variable {e e' : Engine} {names : List String} {a : List Literal}
  {ts ts' : List Term} {b : Bindings}

/-- An alternative has the same answers from the body of its clause and from its part of the
formula. -/
theorem rel_alternative (hprog : Halts e) (hshift : Engine.Shifted 1 e e')
    (hlow : Literal.LowersAll a ws ts) (hlow' : Literal.LowersAll a ws' ts')
    (hunique : Relator.BiUnique (Corresponds xs ws ws')) (hvars : Literal.varsAll a ⊆ xs)
    (hb : b.Tidy) (hkeys : ∀ v, b.find? v ≠ none → v.scope = 0)
    (hnames : ∀ x ∈ names, x ∈ xs ∧ b.find? ⟨x, 0⟩ = some (.var ⟨x, 1⟩)) :
    Multiset.Rel (Variant names) (bag e 1 b (atDepth 1 (Term.renameList 1 ts)))
      (bag e' 0 .empty (atDepth 0 ts')) := by
  have hsame : ∀ x ∈ xs, Corresponds xs ws ws' ⟨x, 1⟩ ⟨x, 0⟩ :=
    fun x hx => ⟨rfl, rfl, .inl ⟨rfl, hx⟩⟩
  have hlinked : Linked (Corresponds xs ws ws') 1 0 b .empty := by
    refine ⟨hunique, fun v w h => ⟨h.1.le, h.2.1.le⟩, hb, Bindings.tidy_empty,
      fun v w h => ?_, fun v hv => ?_, fun _ h => (h rfl).elim⟩
    · have hv : b.find? v = none := by
        by_contra hne
        exact Nat.one_ne_zero (h.1.symm.trans (hkeys v hne))
      rw [hv]
      exact .none
    · exact (hkeys v hv).le.trans (Nat.zero_le 1)
  have hcopies := Literal.LowersAll.copies hlow hlow' (fun x hx => hsame x (hvars hx))
    (paired_corresponds (Literal.LowersAll.names_length hlow hlow'))
  have hgoals : List.Forall₂ (GoalRel (Corresponds xs ws ws') 1) (atDepth 1 (Term.renameList 1 ts))
      (atDepth 0 ts') := by
    rw [atDepth, atDepth, Term.renameList_eq_map, List.map_map, List.forall₂_map_left_iff,
      List.forall₂_map_right_iff]
    have htame := Literal.LowersAll.tame hlow
    exact ((List.forall₂_and_left ts ts').mpr ⟨htame, hcopies⟩).imp fun t t' h =>
      ⟨h.2, h.1.rename 1, rfl⟩
  refine (rel_bag hprog hshift hlinked hgoals).mono fun _ _ _ _ hcopied =>
    hcopied.variant fun x hx => ?_
  exact ⟨⟨x, 1⟩, hsame x (hnames x hx).1, .inr (hnames x hx).2⟩

end Corresponds

namespace Script.Compiled

variable {s : Script} {program : Program} {q : Query}

/-- A query is solved from the bodies of its clauses, with its variables bound to those of the
clause. -/
theorem bag_goal (h : s.Compiled program) (hq : .query q ∈ s.items) (g : Graph) (d : Nat) :
    ∃ b : Bindings, b.Tidy ∧ (∀ x ∈ q.headVariables, b.find? ⟨x, 0⟩ = some (.var ⟨x, 1⟩)) ∧
      (∀ v, b.find? v ≠ none → v.scope = 0) ∧
      bag (program.engine g { depth := d + 1 }) 0 .empty [⟨q.goal, 0⟩] =
        (q.body.alternatives.map fun a => bag (program.engine g { depth := d + 1 }) 1 b
          (atDepth 1 (Term.renameList 1 (queryClause q.name q.headVariables a).body))).sum := by
  obtain ⟨b, hu, htidy, hheads, hkeys⟩ :=
    Bindings.exists_unifyAll_copy q.nodup_headVariables Bindings.tidy_empty
    (fun _ _ => rfl) (fun _ h => (h rfl).elim)
  refine ⟨b, htidy, hheads, hkeys, ?_⟩
  have hwalk : Bindings.empty.walk q.goal = q.goal := by
    refine Bindings.walk_nonvar _ fun v => ?_
    rw [Query.goal]
    cases q.headVariables <;> simp [Term.apply]
  have htame : q.goal.Tame := .call q.name q.all_isFlat_named
  have hends :=
    (Program.halts h.clauses g { depth := d + 1 }).ends 0 .empty [⟨q.goal, 0⟩] Bindings.tidy_empty
    (by simpa using htame)
  have htask : task (Bindings.empty.walk q.goal) = .call ⟨q.name, q.headVariables.length⟩ := by
    rw [hwalk, h.task_goal hq]
  rw [bag_call hends htask (h.isForeign_goal hq g _) (Nat.succ_pos d),
    h.clausesOf_query hq, List.map_map]
  refine congrArg List.sum (List.map_congr_left fun a _ => ?_)
  have hflat := q.all_isFlat_named
  have hhead : Bindings.empty.unify? q.goal ((queryClause q.name q.headVariables a).rename 1).head =
      some b := by
    rw [Clause.rename, queryClause, Term.apply_rename, Query.goal,
      Bindings.unify?_apply Bindings.tidy_empty _ _ hflat
      ((Term.all_isFlat_renameList 1 _).trans hflat), if_pos rfl, hu]
  simp only [Function.comp, hwalk, hhead, Option.elim_some, List.append_nil]
  rfl

theorem rel_bags (h : s.Compiled program) (hq : .query q ∈ s.items) (g : Graph) (d : Nat) :
    Multiset.Rel (Variant (q.headVariables.filter isShown))
      (bag (program.engine g { depth := d + 1 }) 0 .empty [⟨q.goal, 0⟩])
      (bag (program.engine g { depth := d }) 0 .empty [⟨lowerGoal q.body, 0⟩]) := by
  obtain ⟨b, htidy, hheads, hkeys, hbag⟩ := h.bag_goal hq g d
  obtain ⟨wsAll, hlowAll, hnumAll⟩ := lowerFormula_spec q.body.vars q.body 0
  obtain ⟨tss, hsplits, hparts⟩ := hlowAll.splits
  have hsplit :=
    bag_splits (n := 0) (Program.halts h.clauses g { depth := d }) hsplits hlowAll.tame 0
    Bindings.tidy_empty (by simp : ∀ g ∈ ([] : List Goal), g.term.Tame)
  have hsubset : ∀ a ∈ q.body.alternatives, Literal.varsAll a ⊆ q.body.vars :=
    fun a ha => (Formula.of_mem_alternatives ha).2.1
  rw [hbag, lowerGoal, hsplit]
  refine rel_sum
    (((List.forall₂_and_left _ _).mpr ⟨hsubset, hparts⟩).imp fun a ts ⟨hvars, ws', hsub, hlow'⟩ =>
      ?_)
  obtain ⟨ws, hlow, hnum⟩ := lowerLiterals_spec (Literal.varsAll a) a 0
  -- a wildcard may have got the name of an answer variable of another alternative, but of none that
  -- is shown
  have hunique : Relator.BiUnique
      (Corresponds (Literal.varsAll a ++ q.headVariables.filter isShown) ws ws') := by
    refine biUnique_corresponds hnum.nodup (hnumAll.nodup.sublist hsub) (fun w hw => ?_) fun w hw =>
      ?_
    · exact List.not_mem_append (hnum.free w hw) (hnum.not_mem_shown hw _)
    · have hw := hsub.subset hw
      exact List.not_mem_append (fun hmem =>
        hnumAll.free w hw (hvars hmem)) (hnumAll.not_mem_shown hw _)
  have hheads' : ∀ x ∈ q.headVariables.filter isShown,
      x ∈ Literal.varsAll a ++ q.headVariables.filter isShown ∧
        b.find? ⟨x, 0⟩ = some (.var ⟨x, 1⟩) :=
    fun x hx => ⟨List.mem_append_right _ hx, hheads x (List.mem_filter.mp hx).1⟩
  have hshift : Engine.Shifted 1 (program.engine g { depth := d + 1 })
      (program.engine g { depth := d }) :=
    ⟨rfl, rfl, rfl⟩
  have halt :=
    rel_alternative (Program.halts h.clauses g _) hshift hlow hlow' hunique
      (List.subset_append_left _ _)
    htidy hkeys hheads'
  rwa [List.append_nil]

end Script.Compiled

/-- The answers to a query by its name are those to its formula as a goal, each as often, in some
order and up to the names of unbound variables, when both searches try fewer clauses than there are
scopes to tell their copies apart. -/
theorem query_answers_goal {source : String} {script : Script} {program : Program}
    {threshold : Nat} {q : Query} (hparse : Script.parse source = .ok script)
    (hcompile : (Compiler.standard threshold).compile source = .ok program)
    (hq : .query q ∈ script.items) (g : Graph) (d : Nat) :
    ∃ goal, program.queryGoal? q.name = some goal ∧
      (∃ m, ∀ budget ≥ m, ∀ n ≥ m,
        (Solutions.collect? (program.engine g { depth := d + 1 }) budget n (.ofGoal goal)).isSome ∧
        (Solutions.collect? (program.engine g { depth := d }) budget n
          (.ofGoal (lowerGoal q.body))).isSome) ∧
      ∀ budget n as s budget' n' as' s',
        Solutions.collect? (program.engine g { depth := d + 1 }) budget n (.ofGoal goal) =
          some (as, s) →
        Solutions.collect? (program.engine g { depth := d }) budget' n'
          (.ofGoal (lowerGoal q.body)) = some (as', s') →
        s.run.tries < 2 ^ 32 → s'.run.tries < 2 ^ 32 →
        Multiset.Rel (Solution.Variant (q.headVariables.filter isShown)) as as' := by
  have h := Script.compiled_of_compile hparse hcompile
  obtain ⟨ws, hlow, _⟩ := lowerFormula_spec q.body.vars q.body 0
  have htame : q.goal.Tame := .call q.name q.all_isFlat_named
  have htame' : (lowerGoal q.body).Tame := hlow.tame
  have hscope' : ∀ v ∈ (lowerGoal q.body).occurrences, v.scope = 0 :=
    fun v hv => ((hlow.mem_occurrences v).mp hv).1
  have hnames : ∀ x ∈ q.headVariables.filter isShown,
      ⟨x, 0⟩ ∈ (Solutions.ofGoal q.goal).vars ∧
        ⟨x, 0⟩ ∈ (Solutions.ofGoal (lowerGoal q.body)).vars := by
    intro x hx
    obtain ⟨hmem, hshown⟩ := List.mem_filter.mp hx
    have hvar : x ∈ q.body.vars := Formula.visible_subset _ (List.mem_eraseDups.mp hmem)
    refine ⟨by rw [q.vars_ofGoal]; exact List.mem_map_of_mem hx, List.mem_filter.mpr ⟨?_, hshown⟩⟩
    exact List.mem_eraseDups.mpr ((hlow.mem_occurrences _).mpr ⟨rfl, .inl hvar⟩)
  refine ⟨q.goal, h.queryGoal?_query hq, ?_, fun _ _ _ _ _ _ _ _ hc hc' htries htries' => ?_⟩
  · obtain ⟨k, hk⟩ := Program.solveGoal_ends h.clauses g { depth := d + 1 } htame
    obtain ⟨k', hk'⟩ := Program.solveGoal_ends h.clauses g { depth := d } htame'
    obtain ⟨m, hm⟩ := Engine.isSome_collect_of_ends rfl hk
    obtain ⟨m', hm'⟩ := Engine.isSome_collect_of_ends rfl hk'
    refine ⟨max m m', fun budget hb n hn => ⟨hm budget ?_ n ?_, hm' budget ?_ n ?_⟩⟩ <;> omega
  · exact Engine.rel_collect (Program.functionless h.clauses g _)
      (Program.functionless h.clauses g _) rfl rfl htame
      htame' (fun _ => Query.scope_goal) hscope' hnames (h.rel_bags hq g d) hc htries hc' htries'

def nearSource : String :=
  "edge(X, Y) -> link(X, Y).\nedge(X, Z), near(Z, Y) -> link(X, Y).\n" ++
    "query near: node(X), (link(X, Y), edge(X, _); not edge(_, X)).\n"

theorem query_answers_goal_near :
    ∃ script program q goal as s as' s', Script.parse nearSource = .ok script ∧
      (Compiler.standard 16).compile nearSource = .ok program ∧ .query q ∈ script.items ∧
      program.queryGoal? q.name = some goal ∧
      Solutions.collect? (program.engine lineGraph { depth := 4 }) 300 20 (.ofGoal goal) =
        some (as, s) ∧
      Solutions.collect? (program.engine lineGraph { depth := 3 }) 300 20
        (.ofGoal (lowerGoal q.body)) = some (as', s') ∧
      as.length = 3 ∧ as ≠ as' ∧ s.run.tries < 2 ^ 32 ∧ s'.run.tries < 2 ^ 32 ∧
      Multiset.Rel (Solution.Variant (q.headVariables.filter isShown)) as as' := by
  obtain ⟨script, hparse, hscript⟩ := exists_ok_of_any (r := Script.parse nearSource)
    (P := fun s => s.items.any fun i => i.query?.any fun q =>
      ((Compiler.standard 16).compile nearSource).toOption.any fun p =>
        (p.queryGoal? q.name).any fun goal =>
        (Solutions.collect? (p.engine lineGraph { depth := 4 }) 300 20 (.ofGoal goal)).any fun r =>
          (Solutions.collect? (p.engine lineGraph { depth := 3 }) 300 20
          (.ofGoal (lowerGoal q.body))).any fun r' =>
            decide (r.1.length = 3 ∧ r.1 ≠ r'.1 ∧ r.2.run.tries < 2 ^ 32 ∧ r'.2.run.tries < 2 ^ 32))
            (by decide +kernel)
  obtain ⟨q, hq, hquery⟩ := Script.exists_query_of_any hscript
  obtain ⟨program, hcompile, hprogram⟩ := exists_ok_of_any hquery
  obtain ⟨goal, hgoal, hrun⟩ := (Option.any_eq_true _ _).mp hprogram
  obtain ⟨⟨as, s⟩, hc, hrun⟩ := (Option.any_eq_true _ _).mp hrun
  obtain ⟨⟨as', s'⟩, hc', hrun⟩ := (Option.any_eq_true _ _).mp hrun
  obtain ⟨hlen, hne, htries, htries'⟩ := of_decide_eq_true hrun
  obtain ⟨goal', hgoal', _, hanswers⟩ := query_answers_goal hparse hcompile hq lineGraph 3
  cases hgoal.symm.trans hgoal'
  exact ⟨script, program, q, goal, as, s, as', s', hparse, hcompile, hq, hgoal, hc, hc', hlen, hne,
    htries, htries', hanswers _ _ _ _ _ _ _ _ hc hc' htries htries'⟩

/-- By its name the query of the tower has no answer and as a goal it has one, for which one clause
less is tried. -/
theorem query_answers_goal_lost :
    ∃ script program q goal budget n s budget' n' a s', Script.parse towerSource = .ok script ∧
      (Compiler.standard 16).compile towerSource = .ok program ∧ .query q ∈ script.items ∧
      program.queryGoal? q.name = some goal ∧
      Solutions.collect? (program.engine towerGraph { depth := 511 + 1 }) budget n (.ofGoal goal) =
        some ([], s) ∧
      Solutions.collect? (program.engine towerGraph { depth := 511 }) budget' n'
        (.ofGoal (lowerGoal q.body)) = some ([a], s') ∧
      ¬ Multiset.Rel (Solution.Variant (q.headVariables.filter isShown))
        ([] : List Solution) [a] := by
  obtain ⟨script, program, q, htower⟩ := exists_isTowerScript
  have h := Script.compiled_of_compile htower.parse htower.compile
  obtain ⟨budget, s, hname, -⟩ := htower.completes_name
  obtain ⟨budget', a, s', hgoal⟩ := htower.completes_goal
  refine ⟨script, program, q, q.goal, budget, 1, s, budget', 2, a, s', htower.parse,
    htower.compile, htower.query, h.queryGoal?_query htower.query,
    Solutions.collect?_of_completes rfl hname,
    Solutions.collect?_of_completes rfl hgoal, fun hrel => ?_⟩
  have hcard := Multiset.card_eq_card_of_rel hrel
  cases hcard

end GraphRules
