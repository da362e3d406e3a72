import GraphRules.Proofs.AnswerSequence
import Mathlib.Algebra.Group.Nat.Defs

/-! Scopes as words. The count of the clauses tried never goes back in a search. So as long as it is
below the number of words, cutting it down to one changes nothing, and a search that ends below that
number has given out every scope once. -/
namespace GraphRules.Search

theorem scopeOf_of_lt {n : Nat} (h : n < 2 ^ 32) : scopeOf n = n := Nat.mod_eq_of_lt h

end GraphRules.Search

namespace GraphRules.Reference

open Search

namespace Trace

def Late (B : Nat) : Trace Nat → Prop
  | .done x => B ≤ x
  | .interrupted => True
  | .step more => more.Late B
  | .cut more => more.Late B
  | .answer n _ more => B ≤ n ∧ more.Late B

/-- Traces that are the same until every count is at least `B`. -/
inductive Agree (B : Nat) : Trace Nat → Trace Nat → Prop
  | late {s t : Trace Nat} (hs : s.Late B) (ht : t.Late B) : Agree B s t
  | done (x : Nat) : Agree B (.done x) (.done x)
  | interrupted : Agree B .interrupted .interrupted
  | step {s t : Trace Nat} (h : Agree B s t) : Agree B (.step s) (.step t)
  | cut {s t : Trace Nat} (h : Agree B s t) : Agree B (.cut s) (.cut t)
  | answer {s t : Trace Nat} (n : Nat) (b : Bindings) (h : Agree B s t) :
    Agree B (.answer n b s) (.answer n b t)

variable {B x : Nat} {s t : Trace Nat} {f g : Nat → Trace Nat}

theorem Late.andThen (h : s.Late B) (hf : ∀ x ≥ B, (f x).Late B) : (s.andThen f).Late B := by
  induction s with
  | done x => exact hf x h
  | interrupted => trivial
  | step more ih => exact ih h
  | cut more ih => exact ih h
  | answer n b more ih => exact ⟨h.1, ih h.2⟩

theorem Late.ifFails (h : s.Late B) (hf : ∀ x ≥ B, (f x).Late B) : (s.ifFails f id).Late B := by
  induction s with
  | done x => exact hf x h
  | interrupted => trivial
  | step more ih => exact ih h
  | cut more ih => exact ih h
  | answer n b more ih => exact h.1

theorem Late.le_last? (h : s.Late B) (hx : s.last? = some x) : B ≤ x := by
  induction s with
  | done y => cases hx; exact h
  | interrupted => cases hx
  | step more ih => exact ih h hx
  | cut more ih => exact ih h hx
  | answer n b more ih => exact ih h.2 hx

/-- Searches one after the other agree when their parts do and counts go on from where the first was
over. -/
theorem Agree.andThen (h : Agree B s t) (hfg : ∀ x, Agree B (f x) (g x))
    (hf : ∀ x ≥ B, (f x).Late B) (hg : ∀ x ≥ B, (g x).Late B) :
    Agree B (s.andThen f) (t.andThen g) := by
  induction h with
  | late hs ht => exact .late (hs.andThen hf) (ht.andThen hg)
  | done x => exact hfg x
  | interrupted => exact .interrupted
  | step _ ih => exact .step ih
  | cut _ ih => exact .cut ih
  | answer n b _ ih => exact .answer n b ih

theorem Agree.ifFails (h : Agree B s t) (hfg : ∀ x, Agree B (f x) (g x))
    (hf : ∀ x ≥ B, (f x).Late B) (hg : ∀ x ≥ B, (g x).Late B) :
    Agree B (s.ifFails f id) (t.ifFails g id) := by
  induction h with
  | late hs ht => exact .late (hs.ifFails hf) (ht.ifFails hg)
  | done x => exact hfg x
  | interrupted => exact .interrupted
  | step _ ih => exact .step ih
  | cut _ ih => exact .cut ih
  | answer n b _ _ => exact .done n

theorem Agree.symm (h : Agree B s t) : Agree B t s := by
  induction h with
  | late hs ht => exact .late ht hs
  | done x => exact .done x
  | interrupted => exact .interrupted
  | step _ ih => exact .step ih
  | cut _ ih => exact .cut ih
  | answer n b _ ih => exact .answer n b ih

/-- A trace that ends below `B` is the only one it agrees with. -/
theorem Agree.eq_of_last? (h : Agree B s t) (hx : s.last? = some x) (hB : x < B) : t = s := by
  induction h with
  | late hs _ => exact absurd (hs.le_last? hx) (Nat.not_le_of_lt hB)
  | done x => rfl
  | interrupted => rfl
  | step _ ih => exact congrArg Trace.step (ih hx)
  | cut _ ih => exact congrArg Trace.cut (ih hx)
  | answer n b _ ih => exact congrArg (Trace.answer n b) (ih hx)

end Trace

variable {B n : Nat} {copy copy' : Nat → Bindings → Term → List Goal → Nat} {e : Engine}
  {next next' : Next Nat}

/-! ### Counts never go back -/

theorem attempts_late (hnext : ∀ n ≥ B, ∀ b gs, (next n b gs).Late B) (b : Bindings) (call : Term)
    (depth : Nat) (rest : List Goal) (cs : List Clause) (hn : B ≤ n) :
    (attempts (.single copy) next b call depth rest cs n).Late B := by
  induction cs generalizing n with
  | nil => exact hn
  | cons c cs ih =>
    refine Trace.Late.andThen ?_ fun x hx => ih hx
    unfold attempt
    split
    · exact Nat.le_succ_of_le hn
    · exact hnext _ (Nat.le_succ_of_le hn) _ _

theorem called_late (hnext : ∀ n ≥ B, ∀ b gs, (next n b gs).Late B) (b : Bindings) (goal : Term)
    (s : Signature) (depth : Nat) (rest : List Goal) (hn : B ≤ n) :
    (called (.single copy) e next n b goal s depth rest).Late B := by
  unfold called
  split
  · split
    · exact hn
    · exact hnext n hn _ _
  · split
    · exact hn
    · exact attempts_late hnext b goal depth rest _ hn

theorem work_late (hnext : ∀ n ≥ B, ∀ b gs, (next n b gs).Late B) (b : Bindings) (g : Goal)
    (rest : List Goal) (hn : B ≤ n) : (work (.single copy) e next n b g rest).Late B := by
  unfold work
  cases task (b.walk g.term) with
  | done => exact hnext n hn _ _
  | failing => exact hn
  | both x y => exact hnext n hn _ _
  | either x y => exact (hnext n hn _ _).andThen fun z hz => hnext z hz _ _
  | negation x => exact (hnext n hn _ _).ifFails fun z hz => hnext z hz _ _
  | comparison op x y =>
    dsimp only
    split
    · exact hnext n hn _ _
    · exact hn
  | call s => exact called_late hnext b _ s g.depth rest hn

theorem solve_late (copy : Nat → Bindings → Term → List Goal → Nat) (e : Engine) (k : Nat)
    (hn : B ≤ n) (b : Bindings) (gs : List Goal) : (solve (.single copy) e k n b gs).Late B := by
  induction k generalizing n b gs with
  | zero => trivial
  | succ k ih =>
    cases gs with
    | nil => exact ⟨hn, hn⟩
    | cons g rest => exact work_late (fun n hn b gs => ih hn b gs) b g rest hn

/-! ### Copies with the same scopes -/

structure NextAgree (B : Nat) (next next' : Next Nat) : Prop where
  agree : ∀ n b gs, (next n b gs).Agree B (next' n b gs)
  late : ∀ n ≥ B, ∀ b gs, (next n b gs).Late B
  late' : ∀ n ≥ B, ∀ b gs, (next' n b gs).Late B

theorem attempt_agree (hcopy : ∀ n < B, ∀ b call rest, copy n b call rest = copy' n b call rest)
    (h : NextAgree B next next') (n : Nat) (b : Bindings) (call : Term) (depth : Nat)
    (rest : List Goal) (c : Clause) : (attempt (.single copy) next n b call depth rest c).Agree B
      (attempt (.single copy') next' n b call depth rest c) := by
  have hlate : ∀ {copy : Nat → Bindings → Term → List Goal → Nat} {next : Next Nat},
      (∀ n ≥ B, ∀ b gs, (next n b gs).Late B) → B ≤ n + 1 →
      (attempt (.single copy) next n b call depth rest c).Late B := by
    intro copy next hnext hB
    unfold attempt
    split
    · exact hB
    · exact hnext _ hB _ _
  by_cases hB : B ≤ n + 1
  · exact .late (hlate h.late hB) (hlate h.late' hB)
  · simp only [attempt, Counting.single, hcopy (n + 1) (Nat.lt_of_not_le hB)]
    cases b.unify? call (c.rename (copy' (n + 1) b call rest)).head with
    | none => exact .done _
    | some b' => exact h.agree _ _ _

theorem attempts_agree (hcopy : ∀ n < B, ∀ b call rest, copy n b call rest = copy' n b call rest)
    (h : NextAgree B next next') (b : Bindings) (call : Term) (depth : Nat) (rest : List Goal)
    (cs : List Clause) (n : Nat) :
    (attempts (.single copy) next b call depth rest cs n).Agree B
      (attempts (.single copy') next' b call depth rest cs n) := by
  induction cs generalizing n with
  | nil => exact .done n
  | cons c cs ih =>
    exact (attempt_agree hcopy h n b call depth rest c).andThen ih
      (fun _ hx => attempts_late h.late b call depth rest cs hx)
      (fun _ hx => attempts_late h.late' b call depth rest cs hx)

theorem work_agree (hcopy : ∀ n < B, ∀ b call rest, copy n b call rest = copy' n b call rest)
    (h : NextAgree B next next') (n : Nat) (b : Bindings) (g : Goal) (rest : List Goal) :
    (work (.single copy) e next n b g rest).Agree B (work (.single copy') e next' n b g rest) := by
  unfold work
  cases task (b.walk g.term) with
  | done => exact h.agree _ _ _
  | failing => exact .done n
  | both x y => exact h.agree _ _ _
  | either x y =>
    exact (h.agree _ _ _).andThen (fun _ => h.agree _ _ _) (fun z hz =>
      h.late z hz _ _) (fun z hz => h.late' z hz _ _)
  | negation x =>
    exact (h.agree _ _ _).ifFails (fun _ => h.agree _ _ _) (fun z hz =>
      h.late z hz _ _) (fun z hz => h.late' z hz _ _)
  | comparison op x y =>
    dsimp only
    split
    · exact h.agree _ _ _
    · exact .done n
  | call s =>
    dsimp only [called]
    split
    · cases foreign? e b (b.walk g.term) s with
      | none => exact .done n
      | some b' => exact h.agree _ _ _
    · split
      · exact .cut (.done n)
      · exact attempts_agree hcopy h b _ g.depth rest _ n

/-- Searches that copy clauses into the same scopes below a count agree until they come to it. -/
theorem solve_agree (hcopy : ∀ n < B, ∀ b call rest, copy n b call rest = copy' n b call rest)
    (e : Engine) (k n : Nat) (b : Bindings) (gs : List Goal) :
    (solve (.single copy) e k n b gs).Agree B (solve (.single copy') e k n b gs) := by
  induction k generalizing n b gs with
  | zero => exact .interrupted
  | succ k ih =>
    cases gs with
    | nil => exact .answer n b (.done n)
    | cons g rest =>
      exact .step (work_agree hcopy ⟨ih, fun n hn b gs => solve_late copy e k hn b gs,
        fun n hn b gs => solve_late copy' e k hn b gs⟩ n b g rest)

theorem solveGoal_agree (e : Engine) (k : Nat) (goal : Term) :
    (solveGoal .wrapped e k goal).Agree (2 ^ 32) (solveGoal .shared e k goal) :=
  solve_agree (fun _ hn _ _ _ => scopeOf_of_lt hn) e k 0 .empty _

end GraphRules.Reference

namespace GraphRules.Engine

open Reference

variable {e : Engine} {goal : Term} {k x : Nat}

/-- A sequence of answers that was asked for to its end with fewer attempts than there are scopes
gives those of the interpreter that gives out every scope once. -/
theorem solveGoal_shared_of_collect (hs : e.limits.solutions? = none) {budget n : Nat}
    {as : List Solution} {s : Solutions}
    (hc : Solutions.collect? e budget n (.ofGoal goal) = some (as, s))
    (htries : s.run.tries < 2 ^ 32) (hk : n * budget ≤ k) :
    (solveGoal .shared e k goal).last? = some s.run.tries ∧ as = solutions .shared e k goal ∧
      s.depthExceeded = (solveGoal .shared e k goal).isCut := by
  have h := solveGoal_of_collect hs hc hk
  have heq := (solveGoal_agree e k goal).eq_of_last? h.1 htries
  rw [solutions, heq]
  exact h

theorem solveGoal_wrapped_of_shared (hk : (solveGoal .shared e k goal).last? = some x)
    (hx : x < 2 ^ 32) : solveGoal .wrapped e k goal = solveGoal .shared e k goal :=
  (solveGoal_agree e k goal).symm.eq_of_last? hk hx

end GraphRules.Engine
