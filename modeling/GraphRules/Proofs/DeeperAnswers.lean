import GraphRules.Proofs.CallGraph
import GraphRules.Proofs.Coupling
import GraphRules.Proofs.Lockstep
import GraphRules.Proofs.Termination

/-! Answers under a deeper limit. Without negation, a branch that is no longer cut can only add
answers, but it gives out scopes as it goes, so from there on the two searches work on copies of the
clauses in different scopes. What one search finds is found by the other as well, in the same order
and up to the names of unbound variables, as long as there are scopes to tell the copies apart. -/
namespace GraphRules

open Search

/-- Neither the goal nor any goal that it is taken apart into is a variable or a negation. -/
inductive Term.Positive : Term → Prop
  | intro {t : Term} (hvar : t.isVar = false) (hneg : ∀ a, task t ≠ .negation a)
    (hparts : ∀ a ∈ (task t).parts, a.Positive) : t.Positive

namespace Term

variable {R : Var → Var → Prop} {s t : Term}

theorem Positive.walk (h : t.Positive) (b : Bindings) : b.walk t = t := by
  obtain ⟨hvar, -, -⟩ := h
  refine b.walk_nonvar fun v e => ?_
  rw [e] at hvar
  cases hvar

theorem Positive.part (h : t.Positive) {a : Term} (ha : a ∈ (task t).parts) : a.Positive := by
  obtain ⟨-, -, hparts⟩ := h
  exact hparts a ha

theorem Positive.rename (h : t.Positive) (m : Nat) : (t.rename m).Positive := by
  induction h with
  | @intro t hvar hneg _ ih =>
    refine .intro ?_ (fun a ha => ?_) fun a ha => ?_
    · cases t with
      | var v => cases hvar
      | atom a => rfl
      | number x => rfl
      | compound f as => rfl
    · rw [task_rename] at ha
      cases ht : task t with
      | negation c => exact hneg c ht
      | _ => rw [ht] at ha; cases ha
    · rw [parts_rename, renameList_eq_map] at ha
      obtain ⟨c, hc, rfl⟩ := List.mem_map.mp ha
      exact ih c hc

theorem positive_of_parts (hvar : t.isVar = false) (h : (task t).parts = []) : t.Positive := by
  refine .intro hvar (fun a ha => ?_) fun a ha => ?_
  · rw [ha] at h
    cases h
  · rw [h] at ha
    cases ha

theorem Positive.either {a c : Term} (ha : a.Positive) (hc : c.Positive) :
    (Term.compound ";" [a, c]).Positive := by
  refine .intro rfl (fun u hu => by cases hu) fun u hu => ?_
  rcases List.mem_pair.mp hu with rfl | rfl
  · exact ha
  · exact hc

end Term

/-- Clauses without compound arguments, in whose bodies there are neither negations nor goals that
are variables. -/
structure Clause.Plain (c : Clause) : Prop where
  head : ∃ p args, c.head = .apply p args ∧ args.all Term.isFlat
  body : ∀ t ∈ c.body, t.Tame ∧ t.Positive

namespace Reference

/-- One trace within another: the second comes upon all that the first comes upon, in the same
order, and may come upon more. Cuts of the first may be missing in the second. -/
inductive Trace.Within (A : Nat → Bindings → Nat → Bindings → Prop) (D : Nat → Nat → Prop) :
    Trace Nat → Trace Nat → Prop
  | done {x y : Nat} (h : D x y) : Within A D (.done x) (.done y)
  | step {s t : Trace Nat} (h : Within A D s t) : Within A D (.step s) (.step t)
  | cut {s t : Trace Nat} (h : Within A D s t) : Within A D (.cut s) (.cut t)
  | answer {s t : Trace Nat} {m n : Nat} {b b' : Bindings} (ha : A m b n b') (h : Within A D s t) :
    Within A D (.answer m b s) (.answer n b' t)
  | cutLeft {s t : Trace Nat} (h : Within A D s t) : Within A D (.cut s) t
  | stepRight {s t : Trace Nat} (h : Within A D s t) : Within A D s (.step t)
  | cutRight {s t : Trace Nat} (h : Within A D s t) : Within A D s (.cut t)
  | answerRight {s t : Trace Nat} {n : Nat} {b' : Bindings} (h : Within A D s t) :
    Within A D s (.answer n b' t)

namespace Trace.Within

variable {A A' : Nat → Bindings → Nat → Bindings → Prop} {D D' : Nat → Nat → Prop} {s t : Trace Nat}

theorem imp (h : Within A D s t) (hA : ∀ m b n b', A m b n b' → A' m b n b')
    (hD : ∀ x y, D x y → D' x y) : Within A' D' s t := by
  induction h with
  | done h => exact .done (hD _ _ h)
  | step _ ih => exact .step ih
  | cut _ ih => exact .cut ih
  | answer ha _ ih => exact .answer (hA _ _ _ _ ha) ih
  | cutLeft _ ih => exact .cutLeft ih
  | stepRight _ ih => exact .stepRight ih
  | cutRight _ ih => exact .cutRight ih
  | answerRight _ ih => exact .answerRight ih

theorem andThen {f g : Nat → Trace Nat} (h : Within A D s t)
    (hf : ∀ x y, D x y → Within A D' (f x) (g y)) : Within A D' (s.andThen f) (t.andThen g) := by
  induction h with
  | done h => exact hf _ _ h
  | step _ ih => exact .step ih
  | cut _ ih => exact .cut ih
  | answer ha _ ih => exact .answer ha ih
  | cutLeft _ ih => exact .cutLeft ih
  | stepRight _ ih => exact .stepRight ih
  | cutRight _ ih => exact .cutRight ih
  | answerRight _ ih => exact .answerRight ih

theorem nothing (h : Within A D s t) {x : Nat} (hD : ∀ y z, D y z → D' x z) :
    Within A' D' (.done x) t := by
  induction h with
  | done h => exact .done (hD _ _ h)
  | step _ ih => exact .stepRight ih
  | cut _ ih => exact .cutRight ih
  | answer _ _ ih => exact .answerRight ih
  | cutLeft _ ih => exact ih
  | stepRight _ ih => exact .stepRight ih
  | cutRight _ ih => exact .cutRight ih
  | answerRight _ ih => exact .answerRight ih

theorem last? (h : Within A D s t) : ∃ x y, s.last? = some x ∧ t.last? = some y ∧ D x y := by
  induction h with
  | done h => exact ⟨_, _, rfl, rfl, h⟩
  | step _ ih => exact ih
  | cut _ ih => exact ih
  | answer _ _ ih => exact ih
  | cutLeft _ ih => exact ih
  | stepRight _ ih => exact ih
  | cutRight _ ih => exact ih
  | answerRight _ ih => exact ih

theorem answers (h : Within A D s t) :
    List.SublistForall₂ (fun p q => A p.1 p.2 q.1 q.2) s.answers t.answers := by
  induction h with
  | done h => exact .nil
  | step _ ih => exact ih
  | cut _ ih => exact ih
  | answer ha _ ih => exact .cons ha ih
  | cutLeft _ ih => exact ih
  | stepRight _ ih => exact ih
  | cutRight _ ih => exact ih
  | answerRight _ ih => exact .cons_right ih

end Trace.Within

variable {R S : Var → Var → Prop} {B D d k m n depth m' n' : Nat} {b b' : Bindings}
  {gs gs' rest rest' : List Goal} {e : Engine} {P : List Goal → Prop} {next next' : Next Nat}
  {call call' goal : Term} {g : Goal}

theorem goalPair_self (hg : List.Forall₂ (GoalPair R) gs gs') :
    List.Forall₂ (GoalPair (Relation.Comp (flip R) R)) gs' gs' := by
  induction hg with
  | nil => exact .nil
  | cons hgg _ ih => exact .cons ⟨hgg.term.flip.comp hgg.term, rfl⟩ ih

def CoupledFrom (R : Var → Var → Prop) (m : Nat) (b : Bindings) (n : Nat) (b' : Bindings) : Prop :=
  ∃ R', (∀ v w, R v w → R' v w) ∧ Coupled R' m n b b'

structure Onward (m n x y : Nat) : Prop where
  left : m ≤ x
  right : n ≤ y
  more : x + n ≤ y + m

theorem Onward.refl (m n : Nat) : Onward m n m n := ⟨le_rfl, le_rfl, (Nat.add_comm m n).le⟩

theorem Onward.succ (m n : Nat) : Onward m n (m + 1) (n + 1) :=
  ⟨Nat.le_succ m, Nat.le_succ n, by omega⟩

theorem Onward.trans {x y : Nat} (h : Onward m n m' n') (h' : Onward m' n' x y) :
    Onward m n x y := by
  obtain ⟨hm, hn, hmore⟩ := h
  obtain ⟨hx, hy, hmore'⟩ := h'
  exact ⟨hm.trans hx, hn.trans hy, by omega⟩

/-- The traces of two searches for goals that a renaming relates, where none of the scopes up to `m`
and `n` is given out again, and the second search tries no fewer clauses. -/
abbrev WithinFrom (R : Var → Var → Prop) (m n : Nat) : Trace Nat → Trace Nat → Prop :=
  Trace.Within (CoupledFrom R) (Onward m n)

theorem WithinFrom.mono (hR : ∀ v w, R v w → S v w) (hmn : Onward m n m' n') {s t : Trace Nat}
    (h : WithinFrom S m' n' s t) : WithinFrom R m n s t := by
  refine h.imp (fun _ _ _ _ ha => ?_) fun x y hxy => hmn.trans hxy
  obtain ⟨R', hR', hcoupled⟩ := ha
  exact ⟨R', fun v w hvw => hR' v w (hR v w hvw), hcoupled⟩

def NextWithin (P : List Goal → Prop) (next next' : Next Nat) : Prop :=
  ∀ {R : Var → Var → Prop} {m n : Nat} {b b' : Bindings} {gs gs' : List Goal}, Coupled R m n b b' →
    List.Forall₂ (GoalPair R) gs gs' → P gs' → WithinFrom R m n (next m b gs) (next' n b' gs')

theorem attempt_within (hnext : NextWithin P next next') (h : Coupled R m n b b')
    (hcall : call.Rel R call')
    (hg : List.Forall₂ (GoalPair R) rest rest') {c : Clause}
    (hP : ∀ m, P ((c.rename m).body.map (⟨·, depth + 1⟩) ++ rest')) :
    WithinFrom R m n (attempt .shared next m b call depth rest c)
      (attempt .shared next' n b' call' depth rest' c) := by
  have hold : ∀ v w, R v w → Linked.fresh R m n v w := fun _ _ => Linked.fresh_of_rel
  have hnew : ∀ name, Linked.fresh R m n ⟨name, m + 1⟩ ⟨name, n + 1⟩ :=
    fun name => Linked.fresh_new name
  have hu := h.extend.unify? (hcall.mono hold) (Term.rel_rename hnew c.head)
  rw [attempt_plain Counting.plain_shared, attempt_plain Counting.plain_shared]
  simp only [Clause.rename] at hu ⊢
  cases hb : b.unify? call (c.head.rename (m + 1)) with
  | none =>
    rw [hb] at hu
    rw [rel_none hu]
    exact .done (.succ m n)
  | some b₁ =>
    rw [hb] at hu
    obtain ⟨b₂, hb', hcoupled⟩ := rel_some hu
    rw [hb']
    have hgoals := List.rel_append (goalPair_body hnew c (depth + 1)) (GoalPair.mono hold hg)
    exact WithinFrom.mono hold (.succ m n) (hnext hcoupled hgoals (hP (n + 1)))

theorem attempts_within (hnext : NextWithin P next next') (hcall : call.Rel R call')
    (hg : List.Forall₂ (GoalPair R) rest rest') {cs : List Clause}
    (hP : ∀ c ∈ cs, ∀ m, P ((c.rename m).body.map (⟨·, depth + 1⟩) ++ rest'))
    (h : Coupled R m n b b') : WithinFrom R m n (attempts .shared next b call depth rest cs m)
      (attempts .shared next' b' call' depth rest' cs n) := by
  induction cs generalizing m n with
  | nil => exact .done (.refl m n)
  | cons c cs ih =>
    refine (attempt_within hnext h hcall hg (hP c (by simp))).andThen fun x y hxy => ?_
    refine WithinFrom.mono (fun _ _ => id) hxy ?_
    exact ih (fun c' hc' => hP c' (by simp [hc'])) (h.mono hxy.left hxy.right)

/-- A call where the search on the left may be cut. Where only that one is, the other search is
compared with itself: it comes to its end and gives out scopes in its order. -/
theorem called_within (hlib : e.library.IgnoresScopes) (hD : D ≤ d)
    (hnext : NextWithin P next next') (hself : NextWithin P next' next') (h : Coupled R m n b b')
    {goal' : Term} (hgoal : goal.Rel R goal') {s : Signature}
    (hg : List.Forall₂ (GoalPair R) rest rest') (hrest : P rest')
    (hP : depth < d → ∀ c ∈ e.clausesOf s, ∀ m,
    P ((c.rename m).body.map (⟨·, depth + 1⟩) ++ rest')) :
    WithinFrom R m n (called .shared (e.withDepth D) next m b goal s depth rest)
      (called .shared (e.withDepth d) next' n b' goal' s depth rest') := by
  unfold called
  show WithinFrom R m n (if e.library.isForeign s then _
  else _) (if e.library.isForeign s then _ else _)
  by_cases hf : e.library.isForeign s
  · rw [if_pos hf, if_pos hf]
    have hforeign : Option.Rel (Coupled R m n) (foreign? (e.withDepth D) b goal s)
        (foreign? (e.withDepth d) b' goal' s) :=
      foreign?_coupled hlib h hgoal s
    generalize foreign? (e.withDepth D) b goal s = x at hforeign
    generalize foreign? (e.withDepth d) b' goal' s = y at hforeign
    cases hforeign with
    | none => exact .done (.refl m n)
    | some hcoupled => exact hnext hcoupled hg hrest
  · rw [if_neg hf, if_neg hf]
    show WithinFrom R m n (if D ≤ depth then _ else _) (if d ≤ depth then _ else _)
    by_cases hdepth : d ≤ depth
    · rw [if_pos hdepth, if_pos (hD.trans hdepth)]
      exact .cut (.done (.refl m n))
    · have hP := hP (Nat.lt_of_not_le hdepth)
      rw [if_neg hdepth]
      by_cases hcut : D ≤ depth
      · -- the clauses are tried on the right alone, from bindings that are coupled with themselves
        rw [if_pos hcut]
        have hright :=
          attempts_within hself (hgoal.flip.comp hgoal) (goalPair_self hg) hP (h.flip.comp h)
        refine .cutLeft (hright.nothing fun y z hyz => ⟨le_rfl, hyz.right, ?_⟩)
        exact (Nat.add_comm m n).le.trans (Nat.add_le_add_right hyz.right m)
      · rw [if_neg hcut]
        exact attempts_within hnext hgoal hg hP h

/-- Goals without negations that a depth of recursion `k` is enough for, when bodies of clauses have
at most the size `B` and clauses may be nested `d` deep. -/
structure Affordable (B d k : Nat) (gs : List Goal) : Prop where
  positive : ∀ g ∈ gs, g.term.Positive
  weight : weight B d gs < k

theorem Affordable.parts (h : Affordable B d (k + 1) (g :: rest)) (ts : List Term)
    (hts : ts ⊆ (task g.term).parts) (hsize : Term.sizes ts < g.term.size) :
    Affordable B d k (ts.map (⟨·, g.depth⟩) ++ rest) := by
  refine ⟨fun g' hg' => ?_, ?_⟩
  · rcases List.mem_append.mp hg' with hg' | hg'
    · obtain ⟨t, ht, rfl⟩ := List.mem_map.mp hg'
      exact (h.positive g (by simp)).part (hts ht)
    · exact h.positive g' (by simp [hg'])
  · exact Nat.lt_of_lt_of_le (weight_lt B d g.depth ts hsize rest) (Nat.le_of_lt_succ h.weight)

theorem Affordable.body (h : Affordable B d (k + 1) (g :: rest)) (hd : g.depth < d) {c : Clause}
    (hsize : Term.sizes c.body ≤ B) (hbody : ∀ t ∈ c.body, t.Positive) (m : Nat) :
    Affordable B d k ((c.rename m).body.map (⟨·, g.depth + 1⟩) ++ rest) := by
  refine ⟨fun g' hg' => ?_, ?_⟩
  · rcases List.mem_append.mp hg' with hg' | hg'
    · rw [Clause.rename, Term.renameList_eq_map] at hg'
      obtain ⟨t, ht, rfl⟩ := List.mem_map.mp hg'
      obtain ⟨u, hu, rfl⟩ := List.mem_map.mp ht
      exact (hbody u hu).rename m
    · exact h.positive g' (by simp [hg'])
  · exact Nat.lt_of_lt_of_le (weight_body_lt hd hsize m g.term rest) (Nat.le_of_lt_succ h.weight)

theorem work_within (hlib : e.library.IgnoresScopes)
    (hB : ∀ s, ∀ c ∈ e.clausesOf s, Term.sizes c.body ≤ B)
    (hclauses : ∀ s, ∀ c ∈ e.clausesOf s, ∀ t ∈ c.body, t.Positive) (hD : D ≤ d)
    (hnext : NextWithin (Affordable B d k) next next')
    (hself : NextWithin (Affordable B d k) next' next') (h : Coupled R m n b b') {g' : Goal}
    (hgg : GoalPair R g g') (hg : List.Forall₂ (GoalPair R) rest rest')
    (hafford : Affordable B d (k + 1) (g' :: rest')) :
    WithinFrom R m n (work .shared (e.withDepth D) next m b g rest)
      (work .shared (e.withDepth d) next' n b' g' rest') := by
  have hpositive := hafford.positive g' (by simp)
  have hrest : Affordable B d k rest' := hafford.parts [] (by simp) g'.term.size_pos
  have hwalk := h.walk hgg.term
  rw [hpositive.walk b'] at hwalk
  have htask := task_rel hwalk
  unfold work
  rw [hpositive.walk b']
  generalize ht : task (b.walk g.term) = t at htask
  generalize ht' : task g'.term = t' at htask
  have hparts : (task g'.term).parts = t'.parts := by rw [ht']
  cases htask with
  | done => exact hnext h hg hrest
  | failing => exact .done (.refl m n)
  | @both x x' y y' hx hy =>
    have hsize : Term.sizes [x', y'] < g'.term.size := by
      rw [eq_of_task_both ht']
      simp [Term.sizes, Term.size]
    exact hnext h (.cons ⟨hx, hgg.depth⟩ (.cons ⟨hy, hgg.depth⟩ hg))
      (hafford.parts [x', y'] (by rw [hparts]; exact List.Subset.refl _) hsize)
  | @either x x' y y' hx hy =>
    have hsize : Term.sizes [x'] < g'.term.size ∧ Term.sizes [y'] < g'.term.size := by
      rw [eq_of_task_either ht']
      have := x'.size_pos
      have := y'.size_pos
      simp only [Term.sizes, Term.size]
      omega
    have hleft : Affordable B d k (⟨x', g'.depth⟩ :: rest') :=
      hafford.parts [x'] (by rw [hparts]; simp [Task.parts]) hsize.1
    have hright : Affordable B d k (⟨y', g'.depth⟩ :: rest') :=
      hafford.parts [y'] (by rw [hparts]; simp [Task.parts]) hsize.2
    refine Trace.Within.andThen (hnext h (.cons ⟨hx, hgg.depth⟩ hg) hleft) fun u w huw => ?_
    refine WithinFrom.mono (fun _ _ => id) huw ?_
    exact hnext (h.mono huw.left huw.right) (.cons ⟨hy, hgg.depth⟩ hg) hright
  | negation hx =>
    obtain ⟨-, hneg, -⟩ := hpositive
    exact (hneg _ ht').elim
  | comparison op hx hy =>
    dsimp only
    rw [compares_rel h.unique op (h.resolve hx) (h.resolve hy)]
    split
    · exact hnext h hg hrest
    · exact .done (.refl m n)
  | call s =>
    dsimp only
    rw [hgg.depth]
    exact called_within hlib hD hnext hself h hwalk hg hrest fun hdepth c hc m =>
      hafford.body hdepth (hB s c hc) (hclauses s c hc) m

/-- A search is within the search under a deeper limit. The induction covers the search under that
limit beside itself, which says that what was cut comes to its end. -/
theorem solve_within (hlib : e.library.IgnoresScopes)
    (hB : ∀ s, ∀ c ∈ e.clausesOf s, Term.sizes c.body ≤ B)
    (hclauses : ∀ s, ∀ c ∈ e.clausesOf s, ∀ t ∈ c.body, t.Positive) (k : Nat) (hD : D ≤ d) :
    NextWithin (Affordable B d k) (solve .shared (e.withDepth D) k)
      (solve .shared (e.withDepth d) k) := by
  induction k generalizing D with
  | zero => exact fun _ _ hafford => absurd hafford.weight (Nat.not_lt_zero _)
  | succ k ih =>
    intro R m n b b' gs gs' h hg hafford
    cases hg with
    | nil => exact .answer ⟨R, fun _ _ => id, h⟩ (.done (.refl m n))
    | cons hgg hg =>
      exact .step (work_within hlib hB hclauses hD (ih hD) (ih le_rfl) h hgg hg hafford)

theorem solveGoal_within (hlib : e.library.IgnoresScopes)
    (hB : ∀ s, ∀ c ∈ e.clausesOf s, Term.sizes c.body ≤ B)
    (hclauses : ∀ s, ∀ c ∈ e.clausesOf s, ∀ t ∈ c.body, t.Positive)
    (hgoal : goal.Positive) (hscope : ∀ v ∈ goal.occurrences, v.scope = 0)
    (hd : e.limits.depth ≤ d) (hk : weight B d [⟨goal, 0⟩] < k) :
    WithinFrom Same 0 0 (solveGoal .shared e k goal)
      (solveGoal .shared (e.withDepth d) k goal) := by
  have hcoupled : Coupled Same 0 0 .empty .empty := by
    refine ⟨⟨?_, ?_⟩, ?_, ?_, .nil⟩
    · exact fun v v' w h h' => h.1.trans h'.1.symm
    · exact fun v w w' h h' => h.1.symm.trans h'.1
    · rintro v _ ⟨rfl, -⟩
      rfl
    · rintro v _ ⟨rfl, hv⟩
      simp [hv]
  have hself : goal.Rel Same goal := Term.rel_self fun v hv => ⟨rfl, hscope v hv⟩
  exact solve_within hlib hB hclauses k hd hcoupled (.cons ⟨hself, rfl⟩ .nil) ⟨by simpa using hgoal,
    hk⟩

end Reference

theorem Engine.exists_body_bound (e : Engine) :
    ∃ B, ∀ s, ∀ c ∈ e.clausesOf s, Term.sizes c.body ≤ B := by
  have hmem : ∀ (t : Theory) {s : Signature} {c : Clause}, c ∈ t.clausesOf s →
      c ∈ t.groups.flatMap Prod.snd := by
    intro t s c hc
    rw [Theory.clausesOf] at hc
    cases hl : t.groups.lookup s with
    | none => rw [hl] at hc; cases hc
    | some cs =>
      rw [hl] at hc
      obtain ⟨l, l', e, -⟩ := List.lookup_eq_some_iff.mp hl
      exact List.mem_flatMap.mpr ⟨(s, cs), by simp [e], hc⟩
  let clauses := e.library.theory.groups.flatMap Prod.snd ++ e.database.groups.flatMap Prod.snd
  let bodies := clauses.map fun c => Term.sizes c.body
  refine ⟨bodies.sum, fun s c hc => List.le_sum_of_mem (List.mem_map.mpr ⟨c, ?_, rfl⟩)⟩
  rcases List.mem_append.mp hc with hc | hc
  · exact List.mem_append_left _ (hmem _ hc)
  · exact List.mem_append_right _ (hmem _ hc)

namespace Solutions

open Reference

/-- Without negations, every answer to a goal is an answer under a deeper limit too, up to the names
of unbound variables, and the answers keep their order, when the search under the deeper limit comes
to its end and tries fewer clauses than there are scopes. Goals without compound arguments are
searched for to the end, under both limits. -/
theorem deeper_answers_extend (e : Engine) (hs : e.limits.solutions? = none)
    (hlib : e.library.IgnoresScopes) (hclauses : ∀ s, ∀ c ∈ e.clausesOf s, c.Plain)
    {goal : Term} (hgoal : goal.Positive) (hscope : ∀ v ∈ goal.occurrences, v.scope = 0) {d : Nat}
    (hd : e.limits.depth ≤ d) :
    (∀ budget' as' s', (ofGoal goal).Completes (e.withDepth d) budget' as' s' →
      s'.run.tries < 2 ^ 32 → (∃ m as s, ∀ budget ≥ m, (ofGoal goal).Completes e budget as s) ∧
      ∀ budget as s, (ofGoal goal).Completes e budget as s →
        s.run.tries ≤ s'.run.tries ∧ List.SublistForall₂ Solution.VariantOf as as') ∧
    (e.library.Uniform → goal.Tame → ∃ m, ∀ budget ≥ m,
      (∃ as s, (ofGoal goal).Completes e budget as s) ∧
      ∃ as s, (ofGoal goal).Completes (e.withDepth d) budget as s) := by
  obtain ⟨B, hB⟩ := e.exists_body_bound
  refine ⟨fun budget' as' s' h' htries' => ?_, fun hforeign htame => ?_⟩
  · have hc' := collect?_of_completes (e := e.withDepth d) hs h'
    generalize as'.length + 1 = n at hc'
    let k := max (n * budget') (weight B d [⟨goal, 0⟩] + 1)
    have hwithin :=
      solveGoal_within hlib hB (fun s c hc t ht => ((hclauses s c hc).body t ht).2) hgoal hscope hd
      (show weight B d [⟨goal, 0⟩] < k from Nat.le_max_right _ _)
    obtain ⟨hlast', rfl, -⟩ :=
      Engine.solveGoal_shared_of_collect (e := e.withDepth d) hs hc' htries'
      (show n * budget' ≤ k from Nat.le_max_left _ _)
    obtain ⟨x, y, hx, hy, hxy⟩ := hwithin.last?
    cases hy.symm.trans hlast'
    have hle : x ≤ s'.run.tries := hxy.more
    have heq := Engine.solveGoal_wrapped_of_shared hx (Nat.lt_of_le_of_lt hle htries')
    have hwrapped : (solveGoal .wrapped e k goal).ends := heq ▸ Trace.ends_of_last? hx
    obtain ⟨m, hm⟩ := Engine.exists_completes_solutions hs hwrapped
    obtain ⟨s, hs, hlast, -⟩ := hm m le_rfl
    refine ⟨⟨m, _, s, fun budget hb => hs.of_le hb⟩, fun budget as s₁ h => ?_⟩
    obtain ⟨rfl, rfl⟩ := hs.unique h
    rw [heq, hx] at hlast
    refine ⟨(Option.some.inj hlast).symm.trans_le hle, ?_⟩
    rw [solutions, solutions, heq, List.sublistForall₂_map_left_iff,
      List.sublistForall₂_map_right_iff]
    obtain ⟨l, hcopies, hsub⟩ := List.sublistForall₂_iff.mp hwithin.answers
    refine List.sublistForall₂_iff.mpr ⟨l, hcopies.imp fun p q hpq => ?_, hsub⟩
    obtain ⟨R, hR, hcoupled⟩ := hpq
    have hvars : ∀ v ∈ (ofGoal goal).vars, v.scope = 0 := fun v hv =>
      hscope v (List.mem_eraseDups.mp (List.mem_filter.mp hv).1)
    exact Solution.variantOf_ofVariables hcoupled hvars fun v hv => hR v v ⟨rfl, hvars v hv⟩
  · have hends : ∀ d, ∃ k, (solveGoal .wrapped (e.withDepth d) k goal).ends := fun d =>
      ⟨_, solve_ends (e := e.withDepth d) ⟨fun s c hc => (hclauses s c hc).head,
        fun s c hc t ht => ((hclauses s c hc).body t ht).1, hforeign⟩ hB Bindings.tidy_empty (by
        simpa using htame) (Nat.lt_succ_self _)⟩
    obtain ⟨k, hk⟩ := hends e.limits.depth
    obtain ⟨k', hk'⟩ := hends d
    obtain ⟨as, s, m, hm⟩ := Engine.exists_completes (e := e) hk
    obtain ⟨as', s', m', hm'⟩ := Engine.exists_completes hk'
    exact ⟨max m m', fun budget hb =>
      ⟨⟨as, s, hm budget (by omega)⟩, as', s', hm' budget (by omega)⟩⟩

end Solutions

def Term.isAtomic (t : Term) : Bool :=
  (task t).parts.isEmpty && match t with
    | .atom _ => true
    | .compound _ as => !as.isEmpty && as.all Term.isFlat
    | _ => false

theorem Term.exists_of_isAtomic {t : Term} (h : t.isAtomic) :
    t.Positive ∧ ∃ p args, t = .apply p args ∧ args.all Term.isFlat := by
  unfold isAtomic at h
  obtain ⟨hparts, h⟩ := Bool.and_eq_true_iff.mp h
  have hparts := List.isEmpty_iff.mp hparts
  cases t with
  | var v => cases h
  | number x => cases h
  | atom a => exact ⟨positive_of_parts rfl hparts, a, [], rfl, rfl⟩
  | compound f as =>
    obtain ⟨hne, hflat⟩ := Bool.and_eq_true_iff.mp h
    cases as with
    | nil => cases hne
    | cons a as => exact ⟨positive_of_parts rfl hparts, f, a :: as, rfl, hflat⟩

theorem Clause.plain_of_isAtomic {c : Clause} (h : c.head.isAtomic && c.body.all Term.isAtomic) :
    c.Plain := by
  obtain ⟨hhead, hbody⟩ := Bool.and_eq_true_iff.mp h
  refine ⟨(Term.exists_of_isAtomic hhead).2, fun t ht => ?_⟩
  obtain ⟨hpositive, p, args, rfl, hargs⟩ :=
    Term.exists_of_isAtomic (List.all_eq_true.mp hbody t ht)
  exact ⟨.call p hargs, hpositive⟩

theorem Standard.plain {g : Graph} {s : Signature} {c : Clause}
    (hc : c ∈ (library g).theory.clausesOf s) : c.Plain := by
  have hbody := body_eq_nil hc
  rw [show (library g).theory.clausesOf s =
    _ from Theory.clausesOf_insertAll .empty (declarations.facts g) s, facts_declarations] at hc
  obtain ⟨name, ids, _, hids, rfl⟩ := Program.shapeFacts_flat (List.mem_filter.mp hc).1
  refine ⟨⟨name, ids.map .atom, Program.head_fact hids, ?_⟩, fun t ht => ?_⟩
  · rw [List.all_map]
    exact List.all_eq_true.mpr fun _ _ => rfl
  · rw [hbody] at ht
    cases ht

theorem Engine.plain_clauses {e : Engine} {cs : List Clause}
    (hl : ∀ s, ∀ c ∈ e.library.theory.clausesOf s, c.Plain)
    (hdb : e.database = Theory.empty.insertAll cs)
    (hcs : ∀ c ∈ cs, c.head.isAtomic && c.body.all Term.isAtomic) :
    ∀ s, ∀ c ∈ e.clausesOf s, c.Plain := by
  intro s c hc
  rw [clausesOf, hdb, Theory.clausesOf_insertAll] at hc
  rcases List.mem_append.mp hc with hc | hc
  · exact hl s c hc
  · exact Clause.plain_of_isAtomic (hcs c (List.mem_filter.mp hc).1)

namespace Solutions

theorem exists_completes_of_collect {e : Engine} {budget n : Nat} {s : Solutions}
    {as : List Solution} (h : (collect? e budget n s).map Prod.fst = some as) :
    ∃ s', Completes e budget s as s' := by
  obtain ⟨⟨_, s'⟩, hc, rfl⟩ := Option.map_eq_some_iff.mp h
  exact ⟨s', completes_of_collect hc⟩

/-- Paths and pairs; the second of a pair is a variable of a clause. -/
def branchGoal : Term :=
  .compound ";" [.compound "path" [.atom "a", .named "X"],
    .compound "pair" [.named "X", .named "Y"]]

def shown (x : String) (y : Term) : Solution := ⟨[("X", .atom x), ("Y", y)]⟩

def shallowAnswers : List Solution :=
  shown "b" (.named "Y") :: ["a", "b", "c"].map (shown · (.var ⟨"Y", 9⟩))

def deepAnswers : List Solution :=
  ["b", "c"].map (shown · (.named "Y")) ++ ["a", "b", "c"].map (shown · (.var ⟨"Y", 19⟩))

theorem deeper_answers_extend_paths :
    ∃ s s', (ofGoal branchGoal).Completes (Engine.pathEngine.withDepth 2) 100 shallowAnswers s ∧
      (ofGoal branchGoal).Completes ((Engine.pathEngine.withDepth 2).withDepth 4)
        100 deepAnswers s' ∧
      s'.run.tries < 2 ^ 32 ∧ ¬ shallowAnswers.Sublist deepAnswers ∧
      List.SublistForall₂ Solution.VariantOf shallowAnswers deepAnswers := by
  have hshallow : (collect? (Engine.pathEngine.withDepth 2) 100 10 (ofGoal branchGoal)).map
      Prod.fst =
      some shallowAnswers := by decide +kernel
  have hdeep : (collect? ((Engine.pathEngine.withDepth 2).withDepth 4) 100
      10 (ofGoal branchGoal)).any
      fun r => r.1 = deepAnswers && decide (r.2.run.tries < 2 ^ 32) := by decide +kernel
  obtain ⟨s, h⟩ := exists_completes_of_collect hshallow
  obtain ⟨⟨as', s'⟩, hc', hr'⟩ := (Option.any_eq_true _ _).mp hdeep
  rw [Bool.and_eq_true, decide_eq_true_eq, decide_eq_true_eq] at hr'
  obtain ⟨rfl, htries⟩ := hr'
  have h' := completes_of_collect hc'
  have hclauses : ∀ s, ∀ c ∈ (Engine.pathEngine.withDepth 2).clausesOf s, c.Plain :=
    Engine.plain_clauses (fun _ _ => Standard.plain) rfl (by decide +kernel)
  have hgoal : branchGoal.Positive :=
    .either (Term.positive_of_parts rfl rfl) (Term.positive_of_parts rfl rfl)
  have hscope : ∀ v ∈ branchGoal.occurrences, v.scope = 0 := by decide
  have hd : (Engine.pathEngine.withDepth 2).limits.depth ≤ 4 := by decide
  have hextend :=
    deeper_answers_extend (Engine.pathEngine.withDepth 2) rfl
      (Standard.uniform _).ignoresScopes hclauses
    hgoal hscope hd
  exact ⟨s, s', h, h', htries, by decide +kernel, ((hextend.1 _ _ _ h' htries).2 _ _ _ h).2⟩

/-! ### Goals and libraries that look at scopes -/

/-- The first goal fails, later under a deeper limit; the second has a variable of its own in its
clause. -/
def captureEngine : Engine :=
  { library := Standard.library { nodes := [], edges := [] }
    database := Theory.empty.insertAll
      [⟨.atom "a", [.atom "b"]⟩, ⟨.atom "b", [.atom "c"]⟩, ⟨.atom "c", [.atom "fail"]⟩,
        ⟨.compound "q" [.named "Z"], [.compound "e" [.named "X"], .compound "f" [.named "Z"]]⟩,
        ⟨.compound "e" [.atom "b"], []⟩, ⟨.compound "f" [.atom "c"], []⟩] }

def captureGoal : Term := .compound ";" [.atom "a", .compound "q" [.var ⟨"X", 4⟩]]

def stampAnswer : List Term → Outcome
  | [.var v] => .succeed [(.var v, .int v.scope)]
  | _ => .fail

def stamp : Predicate :=
  { signature := ⟨"stamp", 1⟩, kind := .numeric, scope := {}, answer := fun _ => stampAnswer }

def stampEngine : Engine :=
  { library := .ofGraph { predicates := [stamp] } { nodes := [], edges := [] }
    database := Theory.empty.insertAll
      [⟨.atom "a", [.atom "b"]⟩, ⟨.atom "b", [.atom "fail"]⟩,
        ⟨.compound "p" [.named "Z"], [.compound "stamp" [.named "Z"]]⟩] }

def stampGoal : Term := .compound ";" [.atom "a", .compound "p" [.named "X"]]

/-- An answer is lost under a deeper limit when the goal has a variable that a clause is copied to,
or when a foreign predicate tells variables by their scopes. -/
theorem deeper_answers_lost :
    ((∀ s, ∀ c ∈ captureEngine.clausesOf s, c.Plain) ∧ captureGoal.Positive ∧
        captureEngine.library.IgnoresScopes ∧
        ∃ as s as' s', (ofGoal captureGoal).Completes (captureEngine.withDepth 2) 100 as s ∧
          (ofGoal captureGoal).Completes (captureEngine.withDepth 3) 100 as' s' ∧
          ¬ List.SublistForall₂ Solution.VariantOf as as') ∧
      (∀ s, ∀ c ∈ stampEngine.clausesOf s, c.Plain) ∧ stampGoal.Positive ∧
        (∀ v ∈ stampGoal.occurrences, v.scope = 0) ∧
        ∃ as s as' s', (ofGoal stampGoal).Completes (stampEngine.withDepth 1) 100 as s ∧
          (ofGoal stampGoal).Completes (stampEngine.withDepth 2) 100 as' s' ∧
          ¬ List.SublistForall₂ Solution.VariantOf as as' := by
  have hatom : (Term.atom "a").Positive := Term.positive_of_parts rfl rfl
  refine ⟨⟨Engine.plain_clauses (fun _ _ => Standard.plain) rfl (by decide +kernel),
    hatom.either (Term.positive_of_parts rfl rfl), (Standard.uniform _).ignoresScopes, ?_⟩,
    Engine.plain_clauses (fun _ _ hc => by cases hc) rfl (by decide +kernel),
    hatom.either (Term.positive_of_parts rfl rfl), by decide, ?_⟩
  · have hshallow : (collect? (captureEngine.withDepth 2) 100 10 (ofGoal captureGoal)).map
        Prod.fst =
        some [⟨[("X", .atom "c")]⟩] := by decide +kernel
    have hdeep : (collect? (captureEngine.withDepth 3) 100 10 (ofGoal captureGoal)).map Prod.fst =
        some [] := by
      decide +kernel
    obtain ⟨s, h⟩ := exists_completes_of_collect hshallow
    obtain ⟨s', h'⟩ := exists_completes_of_collect hdeep
    exact ⟨_, s, _, s', h, h', fun hsub => by cases hsub⟩
  · have hshallow : (collect? (stampEngine.withDepth 1) 100 10 (ofGoal stampGoal)).map Prod.fst =
        some [⟨[("X", .int 2)]⟩] := by decide +kernel
    have hdeep : (collect? (stampEngine.withDepth 2) 100 10 (ofGoal stampGoal)).map Prod.fst =
        some [⟨[("X", .int 3)]⟩] := by decide +kernel
    obtain ⟨s, h⟩ := exists_completes_of_collect hshallow
    obtain ⟨s', h'⟩ := exists_completes_of_collect hdeep
    refine ⟨_, s, _, s', h, h', fun hsub => ?_⟩
    cases hsub with
    | cons hvariant _ =>
      obtain ⟨-, R, -, hshown⟩ := hvariant
      obtain ⟨u, u', hu, hu', hrel⟩ := hshown "X" (by decide)
      have hu : some (Term.int 2) = some u := hu
      have hu' : some (Term.int 3) = some u' := hu'
      cases hu
      cases hu'
      exact absurd (show Number.int 2 = Number.int 3 from hrel) (by decide)
    | cons_right hsub => cases hsub

end Solutions

end GraphRules
