import GraphRules.Proofs.Operations
import GraphRules.Proofs.QueryAnswers
import GraphRules.Proofs.Reachable

/-! The search for the answers to a goal of a script is finite, whatever the script and the graph.
Calls are nested only so deep, and so there are finitely many answers and each of them is found, or
none is left, after finitely many steps; and no step takes forever, since bindings of constants and
variables have no cycles. -/
namespace GraphRules

open Lowering

/-- Unification of two terms comes to an end, as the bounded function has it. -/
def Bindings.Settled (b : Bindings) (s t : Term) : Prop :=
  b.toStore.Unifies s t (b.unify s t).1 (b.unify s t).2.toStore

namespace Search

variable {e : Engine} {goal : Term} {outer : Bool} {r : Run} {b : Bindings}

theorem step_of_le {prove prove' : Run → Verdict × Run}
    (h : ∀ r, (prove r).1 ≠ .interrupted → prove' r = prove r) {g : Goal} {rest : List Goal}
    (hs : ∀ r', step e prove g rest r ≠ .interrupted r') :
    step e prove' g rest r = step e prove g rest r := by
  unfold step at hs ⊢
  dsimp only at hs ⊢
  cases htask : task (r.bindings.walk g.term) with
  | negation a =>
    simp only [htask, negate] at hs ⊢
    split
    · rfl
    · next hlimit =>
      rw [if_neg hlimit] at hs
      rw [h]
      intro hi
      cases hp : prove (inner r a g.depth) with
      | mk v i =>
        rw [hp] at hi hs
        cases hi
        exact hs _ rfl
  | _ => rfl

/-- More steps do not change what a search comes to. -/
theorem search_of_le {m n : Nat} (hmn : m ≤ n) (h : (search e m r).1 ≠ .interrupted) :
    search e n r = search e m r := by
  induction m generalizing n r with
  | zero => exact (h rfl).elim
  | succ m ih =>
    obtain ⟨n, rfl⟩ : ∃ k, n = k + 1 := ⟨n - 1, by omega⟩
    have hle : m ≤ n := by omega
    simp only [search] at h ⊢
    cases hg : r.goals with
    | nil => rfl
    | cons g rest =>
      rw [hg] at h
      dsimp only at h ⊢
      have hstep : step e (search e n) g rest r = step e (search e m) g rest r := by
        refine step_of_le (fun r => ih hle) fun r' hr' => ?_
        rw [hr'] at h
        exact h rfl
      rw [hstep]
      cases hs : step e (search e m) g rest r with
      | onward r' =>
        rw [hs] at h
        exact ih hle h
      | interrupted r' => rfl
      | back r' =>
        rw [hs] at h
        dsimp only at h ⊢
        cases hb : backtrack r' with
        | mk ok r'' =>
          rw [hb] at h
          cases ok with
          | true => exact ih hle h
          | false => rfl

/-- Nothing that is done in a state goes on forever: neither walks and resolutions, nor making a
call equal to the heads of clauses, those of open choices included, or making the equations of a
foreign predicate true. -/
structure Run.Settles (e : Engine) (r : Run) : Prop where
  walks : ∀ t, ∃ vs, r.bindings.toStore.Walks vs t (r.bindings.walk t)
  resolves : ∀ t, r.bindings.Resolves t (r.bindings.resolve t)
  clauses : ∀ g rest s, r.goals = g :: rest → task (r.bindings.walk g.term) = .call s →
    ∀ c ∈ e.clausesOf s, ∀ m,
    r.bindings.Settled (r.bindings.walk g.term) (c.rename m).head
  equations : ∀ g rest s es, r.goals = g :: rest → task (r.bindings.walk g.term) = .call s →
    e.library.call s ((r.bindings.walk g.term).args.map r.bindings.resolve) = some es →
    r.bindings.toStore.Equates es (equate r.bindings es).1 (equate r.bindings es).2.toStore
  choices : ∀ b mark call depth cs rest, (b, .clauses mark call depth cs rest) ∈ r.waiting →
    ∀ c ∈ cs, ∀ m,
    b.Settled call (c.rename m).head

theorem equates_equate (h : b.Tidy) {es : List (Term × Term)}
    (hes : ∀ p ∈ es, p.1.isFlat ∧ p.2.isFlat) :
    b.toStore.Equates es (equate b es).1 (equate b es).2.toStore := by
  induction es generalizing b with
  | nil => exact .done _
  | cons p es ih =>
    obtain ⟨s, t⟩ := p
    obtain ⟨hs, ht⟩ := hes (s, t) (by simp)
    have hfirst :=
      Bindings.unifies_unify h (Term.isShallow_of_isFlat hs) (Term.isShallow_of_isFlat ht)
    rw [equate]
    rw [Bindings.unify_eq, Bindings.unify?_of_flat h hs ht] at hfirst ⊢
    dsimp only at hs ht hfirst
    cases hm : b.matchFlat s t with
    | none =>
      rw [hm] at hfirst
      exact .failed _ hfirst
    | some b' =>
      rw [hm] at hfirst
      exact .next hfirst (ih (h.matchFlat hs ht hm) fun p hp => hes p (by simp [hp]))

theorem Untangled.unifies {g : Goal} {items : List Item} {cs : List Term} {s : Signature}
    (hprog : e.Functionless) (h : Untangled b (.goal g :: items) cs)
    (ht : Search.task (b.walk g.term) = .call s) {c : Clause} (hc : c ∈ e.clausesOf s) (m : Nat) :
    b.Settled (b.walk g.term) (c.rename m).head := by
  obtain ⟨p, args, hcall, hargs⟩ := h.call ht
  obtain ⟨q, heads, hhead, hheads⟩ := hprog.heads s c hc
  have hshallow : ((c.rename m).head).isShallow := by
    rw [Clause.rename, hhead, Term.apply_rename]
    exact isShallow_apply ((Term.all_isFlat_renameList m heads).trans hheads)
  exact Bindings.unifies_unify h.bindings (hcall ▸ isShallow_apply hargs) hshallow

/-- In every state of a search without compound arguments, all that is done comes to an end. -/
theorem Reachable.settles (hprog : e.Functionless) (hgoal : goal.Tame)
    (h : Reachable e goal outer r) : r.Settles e := by
  have hexplained := h.explained
  have hcons : ∀ {b : Bindings} {g : Goal} {rest : List Goal}, Explains e goal outer b (g :: rest) →
      ∃ items cs, Untangled b (.goal g :: items) cs := by
    intro b g rest hb
    obtain ⟨items, cs, hcourse, _⟩ := hb.cons
    exact ⟨items, cs, hcourse.untangled hprog hgoal⟩
  have htidy : r.bindings.Tidy := by
    obtain ⟨items, cs, hcourse, _⟩ := hexplained.goals
    exact (hcourse.untangled hprog hgoal).bindings
  refine ⟨fun t => ?_, Bindings.resolves_resolve htidy, ?_, ?_, ?_⟩
  · obtain ⟨vs, hvs, -⟩ := htidy.forward.exists_walks t
    exact ⟨vs, hvs⟩
  · intro g rest s hg ht c hc m
    obtain ⟨items, cs, hu⟩ := hcons (hg ▸ hexplained.goals)
    exact hu.unifies hprog ht hc m
  · intro g rest s es _ _ hcall
    exact equates_equate htidy (hprog.foreign.flat_of_call hcall)
  · intro b mark call depth cs rest hmem c hc m
    have hchoice := hexplained.choices.explained _ hmem
    dsimp only at hchoice
    cases hchoice with
    | clauses hb ht hcs =>
      obtain ⟨items, cs, hu⟩ := hcons hb
      exact hu.unifies hprog ht (hcs hc) m

end Search

namespace Solutions

variable {e : Engine} {budget n : Nat} {s s' : Solutions} {as : List Solution}

def isLimited (e : Engine) (s : Solutions) : Bool :=
  match e.limits.solutions? with
  | some n => n ≤ s.emitted
  | none => false

/-- Answers are asked for until there is none, and no search for one is given up; with the state
that is left. -/
inductive Completes (e : Engine) (budget : Nat) : Solutions → List Solution → Solutions → Prop
  | last {s s' : Solutions} (hu : s.isLimited e ∨ s.givesUp e budget = false)
    (h : s.next e budget = (none, s')) : Completes e budget s [] s'
  | more {s s' t : Solutions} {a : Solution} {as : List Solution}
    (hu : s.isLimited e ∨ s.givesUp e budget = false) (h : s.next e budget = (some a, s'))
    (hs : Completes e budget s' as t) : Completes e budget s (a :: as) t

theorem completes_of_collect (h : collect? e budget n s = some (as, s')) :
    Completes e budget s as s' := by
  induction n generalizing s as with
  | zero => cases h
  | succ n ih =>
    simp only [collect?] at h
    split at h
    · cases h
    · next hu =>
      have hu : s.givesUp e budget = false := by simpa using hu
      cases hn : s.next e budget with
      | mk a? s₁ =>
        rw [hn] at h
        cases a? with
        | none => cases h; exact .last (.inr hu) hn
        | some a =>
          obtain ⟨⟨rest, s₂⟩, hrest, heq⟩ := Option.map_eq_some_iff.mp h
          cases heq
          exact .more (.inr hu) hn (ih hrest)

theorem collect?_of_completes (hs : e.limits.solutions? = none) (h : Completes e budget s as s') :
    collect? e budget (as.length + 1) s = some (as, s') := by
  have hlimited : ∀ s : Solutions, s.isLimited e = false := fun s => by simp [isLimited, hs]
  induction h with
  | @last s s' hu hn =>
    have hu := hu.resolve_left (ne_true_of_eq_false (hlimited s))
    simp [collect?, hu, hn]
  | @more s s' t a as hu hn _ ih =>
    have hu := hu.resolve_left (ne_true_of_eq_false (hlimited s))
    rw [List.length_cons, collect?, if_neg (ne_true_of_eq_false hu), hn]
    dsimp only
    rw [ih]
    rfl

theorem next_of_le {m : Nat} (hmn : m ≤ n) (hu : s.isLimited e ∨ s.givesUp e m = false) :
    s.next e n = s.next e m ∧ (s.isLimited e ∨ s.givesUp e n = false) := by
  cases hr : s.resumed? with
  | none =>
    obtain ⟨s', hnext⟩ := next_of_not_resumed hr
    exact ⟨(hnext e n).trans (hnext e m).symm, .inr (by simp [givesUp, hr])⟩
  | some r =>
    rw [next_of_resumed hr, next_of_resumed hr]
    by_cases hlimit : s.isLimited e
    · refine ⟨?_, .inl hlimit⟩
      have hadvance : ∀ k, advance e k { s with run := r } =
          (none, { s with run := r, stage := .done }) := fun k => by
        unfold advance
        exact if_pos hlimit
      rw [hadvance, hadvance]
    · have hsearch : (Search.search e m r).1 ≠ .interrupted := by
        simpa [givesUp, hr] using hu.resolve_left hlimit
      have heq := Search.search_of_le hmn hsearch
      refine ⟨by simp only [advance, heq], .inr ?_⟩
      simpa [givesUp, hr, heq] using hsearch

theorem Completes.of_le {m : Nat} (hmn : m ≤ n) (h : Completes e m s as s') :
    Completes e n s as s' := by
  induction h with
  | last hu hn =>
    obtain ⟨heq, hu⟩ := next_of_le hmn hu
    exact .last hu (heq.trans hn)
  | more hu hn _ ih =>
    obtain ⟨heq, hu⟩ := next_of_le hmn hu
    exact .more hu (heq.trans hn) ih

end Solutions

theorem Engine.exists_completes {e : Engine} {goal : Term} {k : Nat}
    (hk : (Reference.solveGoal .wrapped e k goal).ends) :
    ∃ as s m, ∀ budget ≥ m, (Solutions.ofGoal goal).Completes e budget as s := by
  by_cases hlimit : e.limits.solutions? = some 0
  · -- no answer is allowed, and none is searched for
    have hlimited : (Solutions.ofGoal goal).isLimited e := by simp [Solutions.isLimited, hlimit]
    have hnext : ∀ budget, (Solutions.ofGoal goal).next e budget =
        (none, { Solutions.ofGoal goal with stage := .done }) :=
      fun budget => if_pos hlimited
    exact ⟨[], _, 0, fun budget _ => .last (.inl hlimited) (hnext budget)⟩
  · obtain ⟨m, hm⟩ := exists_collect_of_ends hlimit hk
    obtain ⟨⟨as, s⟩, hc⟩ := Option.isSome_iff_exists.mp (hm m (Nat.le_refl m) m (Nat.le_refl m))
    exact ⟨as, s, m, fun budget hb => (Solutions.completes_of_collect hc).of_le hb⟩

theorem Engine.exists_completes_solutions {e : Engine} (hs : e.limits.solutions? = none)
    {goal : Term} {k : Nat} (hk : (Reference.solveGoal .wrapped e k goal).ends) :
    ∃ m, ∀ budget ≥ m, ∃ s,
      (Solutions.ofGoal goal).Completes e budget (Reference.solutions .wrapped e k goal) s ∧
      (Reference.solveGoal .wrapped e k goal).last? = some s.run.tries ∧
      s.depthExceeded = (Reference.solveGoal .wrapped e k goal).isCut := by
  obtain ⟨m, hm⟩ := isSome_collect_of_ends hs hk
  obtain ⟨⟨as, s⟩, hc⟩ := Option.isSome_iff_exists.mp (hm m (Nat.le_refl m) m (Nat.le_refl m))
  obtain ⟨hlast, has, hcut⟩ := solveGoal_of_collect hs hc (Nat.le_max_left (m * m) k)
  have heq : Reference.solveGoal .wrapped e (max (m * m) k) goal =
      Reference.solveGoal .wrapped e k goal :=
    Reference.solve_of_ends hk (Nat.le_max_right _ _)
  rw [Reference.solutions, heq] at has
  rw [heq] at hlast hcut
  refine ⟨m, fun budget hb => ⟨s, ?_, hlast, hcut⟩⟩
  rw [Reference.solutions, ← has]
  exact (Solutions.completes_of_collect hc).of_le hb

theorem Program.tame_of_queryGoal {p : Program} {s : Script}
    (hp : p.clauses = s.items.flatMap itemClauses) {name : String} {goal : Term}
    (h : p.queryGoal? name = some goal) : goal.Tame := by
  unfold Program.queryGoal? at h
  simp only [Option.bind_eq_bind, Option.bind_eq_some_iff, Option.pure_def, Option.some.injEq] at h
  obtain ⟨_, _, c, hc, rfl⟩ := h
  have hmem := List.mem_of_find?_eq_some hc
  rw [hp] at hmem
  obtain ⟨i, _, hi⟩ := List.mem_flatMap.mp hmem
  obtain ⟨⟨q, args, hhead, hargs⟩, _⟩ := itemClauses_flat hi
  rw [hhead]
  exact .call q hargs

theorem Lowering.tame_lowerGoal (f : Formula) : (lowerGoal f).Tame := by
  obtain ⟨ws, hlow, _⟩ := lowerFormula_spec f.vars f 0
  exact hlow.tame

/-- Asking for one answer after the other comes to its end, for every script, checked or not. No
search on the way is given up, nested ones included, and nothing that is done in any state of it
goes on forever. -/
theorem answers_exhausted (s : Script) (threshold : Nat) (g : Graph) (limits : Limits) {goal : Term}
    (hgoal : (∃ name, (s.lower threshold).queryGoal? name = some goal) ∨ ∃ f, goal = lowerGoal f) :
    (∃ as t m, ∀ budget ≥ m,
      (Solutions.ofGoal goal).Completes ((s.lower threshold).engine g limits) budget as t) ∧
      ∀ outer r, Search.Reachable ((s.lower threshold).engine g limits) goal outer r →
        r.Settles ((s.lower threshold).engine g limits) := by
  have hclauses : (s.lower threshold).clauses = s.items.flatMap itemClauses := rfl
  have htame : goal.Tame := by
    rcases hgoal with ⟨name, h⟩ | ⟨f, rfl⟩
    · exact Program.tame_of_queryGoal hclauses h
    · exact tame_lowerGoal f
  obtain ⟨k, hk⟩ := Program.solveGoal_ends hclauses g limits htame
  exact ⟨Engine.exists_completes hk, fun _ _ hr =>
    hr.settles (Program.functionless hclauses g limits) htame⟩

def cycleSource : String :=
  "path(X, Z), path(Z, Y) -> path(X, Y).\nedge(X, Y) -> path(X, Y).\n" ++
    "query around: path(X, X), not path(X, b).\n"

def cycleGraph : Graph :=
  { nodes := [⟨"a", []⟩, ⟨"b", []⟩], edges := [⟨"e", "a", "b", []⟩, ⟨"f", "b", "a", []⟩] }

theorem answers_exhausted_cycle :
    ∃ script goal, Script.parse cycleSource = .ok script ∧
      (script.lower 16).queryGoal? "around" = some goal ∧ (∃ as t m, ∀ budget ≥ m,
        (Solutions.ofGoal goal).Completes ((script.lower 16).engine cycleGraph { depth := 6 })
          budget as t) ∧
      ∀ outer r,
        Search.Reachable ((script.lower 16).engine cycleGraph { depth := 6 }) goal outer r →
        r.Settles ((script.lower 16).engine cycleGraph { depth := 6 }) := by
  obtain ⟨script, hparse, hgoal⟩ := exists_ok_of_any (r := Script.parse cycleSource)
    (P := fun s => ((s.lower 16).queryGoal? "around").isSome) (by decide +kernel)
  obtain ⟨goal, hgoal⟩ := Option.isSome_iff_exists.mp hgoal
  exact ⟨script, goal, hparse, hgoal,
    answers_exhausted script 16 cycleGraph { depth := 6 } (.inl ⟨_, hgoal⟩)⟩

end GraphRules
