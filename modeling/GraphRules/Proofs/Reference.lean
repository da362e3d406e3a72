import GraphRules.Engine.Solutions
import GraphRules.Proofs.Restoring
import GraphRules.Proofs.Trace

/-! A reference interpreter for goals: plain depth-first resolution by recursion on lists of goals,
with negation as failure and a limit on the nesting of clauses. There is no stack of choices, and no
trail. Which scope the copy of a clause gets, and how the clauses tried are counted from one branch
to the next, is left open. The recursion is given a bound, and a search that meets it is
interrupted. -/
namespace GraphRules

def Var.topScope (vs : List Var) : Nat := vs.foldr (fun v n => max v.scope n) 0

theorem Var.scope_le_topScope {v : Var} {vs : List Var} (h : v ∈ vs) : v.scope ≤ topScope vs := by
  induction vs with
  | nil => cases h
  | cons w vs ih =>
    rcases List.mem_cons.mp h with rfl | h
    · exact Nat.le_max_left _ _
    · exact (ih h).trans (Nat.le_max_right _ _)

def Bindings.occurrences (b : Bindings) : List Var :=
  b.trail.flatMap fun p => p.1 :: p.2.occurrences

namespace Reference
open Search

def stateVars (b : Bindings) (call : Term) (rest : List Goal) : List Var :=
  b.occurrences ++ call.occurrences ++ rest.flatMap (·.term.occurrences)

/-- How clauses are copied and counted: the scope of a copy, by how many were tried and by the state
it is made for; what a branch keeps of its count when it is over; and the count with which the next
branch goes on where the search had split. No count is given out again that is in use there. -/
structure Counting (ε : Type) where
  copy : Nat → Bindings → Term → List Goal → Nat
  finish : Nat → ε
  resume : Nat → ε → Nat
  le_resume : ∀ {m n : Nat}, m ≤ n → m ≤ resume m (finish n)

def Counting.single (copy : Nat → Bindings → Term → List Goal → Nat) :
    Counting Nat := ⟨copy, id, fun _ n => n, id⟩

/-- Every copy gets a scope that no variable of the state has: clauses are renamed apart. -/
def Counting.apart : Counting Nat := .single fun _ b call rest =>
  Var.topScope (stateVars b call rest) + 1

def Counting.shared : Counting Nat := .single fun n _ _ _ => n

/-- Scopes are words, and counts are cut down to them. -/
def Counting.wrapped : Counting Nat := .single fun n _ _ _ => scopeOf n

/-- A count for each branch, which starts from that of the point where the search split. -/
def Counting.perBranch : Counting Unit :=
  ⟨fun n _ _ _ => n, fun _ => (), fun n _ => n, fun _ => Nat.le_refl _⟩

def Counting.Plain {ε : Type} (κ : Counting ε) : Prop := ∀ n b call rest, κ.copy n b call rest = n

theorem Counting.plain_shared : Counting.shared.Plain := fun _ _ _ _ => rfl

theorem Counting.plain_perBranch : Counting.perBranch.Plain := fun _ _ _ _ => rfl

abbrev Next (ε : Type) := Nat → Bindings → List Goal → Trace ε

variable {ε : Type}

def attempt (κ : Counting ε) (next : Next ε) (n : Nat) (b : Bindings) (call : Term) (depth : Nat)
    (rest : List Goal) (c : Clause) : Trace ε :=
  match b.unify? call (c.rename (κ.copy (n + 1) b call rest)).head with
  | none => .done (κ.finish (n + 1))
  | some b' =>
    next (n + 1) b' ((c.rename (κ.copy (n + 1) b call rest)).body.map (⟨·, depth + 1⟩) ++ rest)

def attempts (κ : Counting ε) (next : Next ε) (b : Bindings) (call : Term) (depth : Nat)
    (rest : List Goal) : List Clause → Nat → Trace ε
  | [], n => .done (κ.finish n)
  | c :: cs, n =>
    (attempt κ next n b call depth rest c).andThen fun x =>
      attempts κ next b call depth rest cs (κ.resume n x)

def foreign? (e : Engine) (b : Bindings) (goal : Term) (s : Signature) : Option Bindings :=
  (e.library.call s (goal.args.map b.resolve)).bind (equate? b)

/-- A call of a predicate: a foreign one is asked, any other is answered from its clauses, unless
they are nested too deep. -/
def called (κ : Counting ε) (e : Engine) (next : Next ε) (n : Nat) (b : Bindings) (goal : Term)
    (s : Signature) (depth : Nat) (rest : List Goal) : Trace ε :=
  if e.library.isForeign s then
    match foreign? e b goal s with
    | none => .done (κ.finish n)
    | some b' => next n b' rest
  else if e.limits.depth ≤ depth then .cut (.done (κ.finish n))
  else attempts κ next b goal depth rest (e.clausesOf s) n

def work (κ : Counting ε) (e : Engine) (next : Next ε) (n : Nat) (b : Bindings) (g : Goal)
    (rest : List Goal) : Trace ε :=
  match task (b.walk g.term) with
  | .done => next n b rest
  | .failing => .done (κ.finish n)
  | .both x y => next n b (⟨x, g.depth⟩ :: ⟨y, g.depth⟩ :: rest)
  | .either x y =>
    (next n b (⟨x, g.depth⟩ :: rest)).andThen fun z => next (κ.resume n z) b (⟨y, g.depth⟩ :: rest)
  | .negation x => (next n b [⟨x, g.depth⟩]).ifFails (fun z => next (κ.resume n z) b rest) κ.finish
  | .comparison op x y =>
    if compares op (b.resolve x) (b.resolve y) then next n b rest else .done (κ.finish n)
  | .call s => called κ e next n b (b.walk g.term) s g.depth rest

def solve (κ : Counting ε) (e : Engine) : Nat → Next ε
  | 0, _, _, _ => .interrupted
  | _ + 1, n, b, [] => .answer n b (.done (κ.finish n))
  | k + 1, n, b, g :: rest => .step (work κ e (solve κ e k) n b g rest)

def solveGoal (κ : Counting ε) (e : Engine) (k : Nat) (goal : Term) :
    Trace ε := solve κ e k 0 .empty [⟨goal, 0⟩]

def solutions (κ : Counting ε) (e : Engine) (k : Nat) (goal : Term) : List Solution :=
  (solveGoal κ e k goal).answers.map fun a => .ofVariables (Solutions.ofGoal goal).vars a.2

variable {κ : Counting ε} {e : Engine} {next next' : Next ε}

theorem attempt_plain (hκ : κ.Plain) (n : Nat) (b : Bindings) (call : Term) (depth : Nat)
    (rest : List Goal) (c : Clause) :
    attempt κ next n b call depth rest c =
      match b.unify? call (c.rename (n + 1)).head with
      | none => .done (κ.finish (n + 1))
      | some b' => next (n + 1) b' ((c.rename (n + 1)).body.map (⟨·, depth + 1⟩) ++ rest) := by
  rw [attempt, hκ]

theorem attempt_wrapped {next : Next Nat} (n : Nat) (b : Bindings) (call : Term) (depth : Nat)
    (rest : List Goal) (c : Clause) :
    attempt .wrapped next n b call depth rest c =
      match b.unify? call (c.rename (scopeOf (n + 1))).head with
      | none => .done (n + 1)
      | some b' =>
        next (n + 1) b' ((c.rename (scopeOf (n + 1))).body.map (⟨·, depth + 1⟩) ++ rest) := rfl

theorem attempts_le (h : ∀ n b gs, Trace.Le (next n b gs) (next' n b gs)) (b : Bindings)
    (call : Term) (depth : Nat) (rest : List Goal) (cs : List Clause) (n : Nat) :
    Trace.Le (attempts κ next b call depth rest cs n)
      (attempts κ next' b call depth rest cs n) := by
  induction cs generalizing n with
  | nil => exact .done _
  | cons c cs ih =>
    refine Trace.Le.andThen ?_ fun x => ih _
    unfold attempt
    cases b.unify? call (c.rename (κ.copy (n + 1) b call rest)).head with
    | none => exact .done _
    | some b' => exact h _ _ _

theorem called_le (h : ∀ n b gs, Trace.Le (next n b gs) (next' n b gs)) (n : Nat) (b : Bindings)
    (goal : Term) (s : Signature) (depth : Nat) (rest : List Goal) :
    Trace.Le (called κ e next n b goal s depth rest) (called κ e next' n b goal s depth rest) := by
  unfold called
  split
  · cases foreign? e b goal s with
    | none => exact .done _
    | some b' => exact h _ _ _
  · split
    · exact .refl _
    · exact attempts_le h _ _ _ _ _ _

theorem work_le (h : ∀ n b gs, Trace.Le (next n b gs) (next' n b gs)) (n : Nat) (b : Bindings)
    (g : Goal) (rest : List Goal) :
    Trace.Le (work κ e next n b g rest) (work κ e next' n b g rest) := by
  unfold work
  cases task (b.walk g.term) with
  | done => exact h _ _ _
  | failing => exact .done _
  | both x y => exact h _ _ _
  | either x y => exact (h _ _ _).andThen fun _ => h _ _ _
  | negation x => exact (h _ _ _).ifFails (fun _ => h _ _ _) _
  | comparison op x y =>
    dsimp only
    split
    · exact h _ _ _
    · exact .done _
  | call s => exact called_le h _ _ _ _ _ _

theorem solve_le_succ (k n : Nat) (b : Bindings) (gs : List Goal) :
    Trace.Le (solve κ e k n b gs) (solve κ e (k + 1) n b gs) := by
  induction k generalizing n b gs with
  | zero => exact .interrupted _
  | succ k ih =>
    cases gs with
    | nil => exact .refl _
    | cons g rest => exact .step (work_le ih n b g rest)

/-- More depth only makes a search go on where it was interrupted. -/
theorem solve_le {k k' : Nat} (h : k ≤ k') (n : Nat) (b : Bindings) (gs : List Goal) :
    Trace.Le (solve κ e k n b gs) (solve κ e k' n b gs) := by
  induction h with
  | refl => exact .refl _
  | step _ ih => exact ih.trans (solve_le_succ _ _ _ _)

theorem solve_of_ends {k k' : Nat} {n : Nat} {b : Bindings} {gs : List Goal}
    (he : (solve κ e k n b gs).ends) (h : k ≤ k') : solve κ e k' n b gs = solve κ e k n b gs :=
  ((solve_le h n b gs).eq_of_ends he).symm

end Reference

end GraphRules
