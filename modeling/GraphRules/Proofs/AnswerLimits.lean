import GraphRules.Proofs.Lockstep

/-! A limit on the answers takes the first ones and changes nothing else. The limit holds for the
searches for negated goals as well, each of which ends with its first answer, so only a limit of
zero could be felt there; and under that limit nothing is searched for. -/
namespace GraphRules

def Engine.withSolutions (e : Engine) (limit : Option Nat) : Engine :=
  { e with limits := { e.limits with solutions? := limit } }

namespace Search

variable {e : Engine} {limit limit' : Option Nat}

theorem step_withSolutions (h : limit ≠ some 0) (h' : limit' ≠ some 0) (prove : Run → Verdict × Run)
    (g : Goal) (rest : List Goal) (r : Run) :
    step (e.withSolutions limit) prove g rest r = step (e.withSolutions limit') prove g rest r := by
  unfold step
  dsimp only
  cases task (r.bindings.walk g.term) with
  | negation a =>
    have hne : (e.withSolutions limit).limits.solutions? ≠ some 0 := h
    have hne' : (e.withSolutions limit').limits.solutions? ≠ some 0 := h'
    simp only [negate, if_neg hne, if_neg hne']
  | _ => rfl

theorem search_withSolutions (h : limit ≠ some 0) (h' : limit' ≠ some 0) (fuel : Nat) :
    search (e.withSolutions limit) fuel = search (e.withSolutions limit') fuel := by
  induction fuel with
  | zero => rfl
  | succ fuel ih =>
    funext r
    cases hg : r.goals with
    | nil => simp only [search, hg]
    | cons g rest => simp only [search, hg, ih, step_withSolutions h h']

end Search

namespace Solutions

variable {e : Engine} {budget n : Nat} {s : Solutions}

def later (e : Engine) (budget : Nat) : Nat → Solutions → Solutions
  | 0, s => s
  | k + 1, s => ((later e budget k s).next e budget).2

def answer? (e : Engine) (budget k : Nat) (s : Solutions) :
    Option Solution := ((later e budget k s).next e budget).1

/-- What a call does to a sequence: it returns an answer and counts it, or returns none and ends the
sequence. -/
def Counts (s : Solutions) (p : Option Solution × Solutions) : Prop :=
  p.1.isSome ∧ p.2.emitted = s.emitted + 1 ∨ p.1 = none ∧
    p.2.emitted = s.emitted ∧ p.2.stage = .done

theorem advance_counts (e : Engine) (budget : Nat) (s : Solutions) :
    s.Counts (advance e budget s) := by
  cases hl : s.isLimited e with
  | true => exact .inr (by rw [advance_limited hl]; exact ⟨rfl, rfl, rfl⟩)
  | false =>
    rw [advance_unlimited hl]
    cases Search.search e budget s.run with
    | mk v r =>
      cases v with
      | found => exact .inl ⟨rfl, rfl⟩
      | exhausted => exact .inr ⟨rfl, rfl, rfl⟩
      | interrupted => exact .inr ⟨rfl, rfl, rfl⟩

theorem next_counts (e : Engine) (budget : Nat) (s : Solutions) : s.Counts (s.next e budget) := by
  obtain ⟨run, vars, stage, emitted⟩ := s
  cases stage with
  | fresh => exact advance_counts e budget ⟨run, vars, .fresh, emitted⟩
  | yielded =>
    simp only [next]
    cases Search.backtrack run with
    | mk ok r =>
      cases ok with
      | true => exact advance_counts e budget ⟨r, vars, .yielded, emitted⟩
      | false => exact .inr ⟨rfl, rfl, rfl⟩
  | done => exact .inr ⟨rfl, rfl, rfl⟩

theorem next_done (h : s.stage = .done) : s.next e budget = (none, s) := by simp only [next, h]

/-- After `k` calls there were `k` answers, or the sequence has ended. -/
theorem later_counts (e : Engine) (budget k : Nat) (s : Solutions) :
    (later e budget k s).emitted = s.emitted + k ∨
      (later e budget k s).emitted < s.emitted + k ∧ (later e budget k s).stage = .done := by
  induction k with
  | zero => exact .inl rfl
  | succ k ih =>
    rw [later]
    obtain ih | ⟨hlt, hdone⟩ := ih
    · obtain ⟨-, hemitted⟩ | ⟨-, hemitted, hdone⟩ := next_counts e budget (later e budget k s)
      · exact .inl (by omega)
      · exact .inr ⟨by omega, hdone⟩
    · rw [next_done hdone]
      exact .inr ⟨Nat.lt_succ_of_lt hlt, hdone⟩

/-! ### Below and at the limit -/

theorem isLimited_withSolutions : s.isLimited (e.withSolutions (some n)) = decide (n ≤ s.emitted) :=
  rfl

theorem next_below (h : s.emitted < n) :
    s.next (e.withSolutions (some n)) budget = s.next (e.withSolutions none) budget ∧
      s.givesUp (e.withSolutions (some n)) budget = s.givesUp (e.withSolutions none) budget := by
  have hpos : some n ≠ some 0 := by
    rw [ne_eq, Option.some.injEq]
    omega
  have hsearch : Search.search (e.withSolutions (some n)) budget =
      Search.search (e.withSolutions none) budget :=
    Search.search_withSolutions hpos (Option.some_ne_none 0).symm budget
  refine ⟨?_, by rw [givesUp, givesUp, hsearch]⟩
  cases hr : s.resumed? with
  | none =>
    obtain ⟨s', hnext⟩ := next_of_not_resumed hr
    rw [hnext, hnext]
  | some r =>
    have hunlimited : isLimited (e.withSolutions (some n)) { s with run := r } = false := by
      rw [isLimited_withSolutions]
      exact decide_eq_false (by simpa using h)
    rw [next_of_resumed hr, next_of_resumed hr, advance_unlimited hunlimited,
      advance_unlimited rfl, hsearch]

theorem next_at (h : n ≤ s.emitted) : (s.next (e.withSolutions (some n)) budget).1 = none := by
  cases hr : s.resumed? with
  | none =>
    obtain ⟨s', hnext⟩ := next_of_not_resumed hr
    rw [hnext]
  | some r =>
    have hlimited : isLimited (e.withSolutions (some n)) { s with run := r } = true :=
      decide_eq_true h
    rw [next_of_resumed hr, advance_limited hlimited]

/-- Up to as many calls as answers are allowed, the sequences stand in the same state. -/
theorem later_withSolutions {k : Nat} (hk : s.emitted + k ≤ n) :
    later (e.withSolutions (some n)) budget k s = later (e.withSolutions none) budget k s := by
  induction k with
  | zero => rfl
  | succ k ih =>
    have hbelow : (later (e.withSolutions none) budget k s).emitted < n := by
      have := later_counts (e.withSolutions none) budget k s
      omega
    rw [later, later, ih (by omega), (next_below hbelow).1]

theorem take_withSolutions (e : Engine) (budget n k : Nat) (s : Solutions) :
    (take (e.withSolutions (some n)) budget k s).1 =
      (take (e.withSolutions none) budget k s).1.take (n - s.emitted) := by
  induction k generalizing s with
  | zero => simp [take]
  | succ k ih =>
    by_cases h : s.emitted < n
    · rw [take, take, (next_below h).1]
      have hcounts := next_counts (e.withSolutions none) budget s
      cases hn : s.next (e.withSolutions none) budget with
      | mk a s' =>
        rw [hn] at hcounts
        cases a with
        | none => simp
        | some a =>
          obtain ⟨-, hemitted⟩ | ⟨hnone, -⟩ := hcounts
          · dsimp only at hemitted ⊢
            rw [ih, hemitted, show n - s.emitted = (n - (s.emitted + 1)) + 1 by omega,
              List.take_succ_cons]
          · cases hnone
    · have hnone : (s.next (e.withSolutions (some n)) budget).1 = none := next_at (by omega)
      rw [show n - s.emitted = 0 by omega, List.take_zero, take]
      cases hn : s.next (e.withSolutions (some n)) budget with
      | mk a s' =>
        rw [hn] at hnone
        cases hnone
        rfl

/-- With a limit of `n` answers, each of the first `n` calls returns what it returns without a limit
and leaves the sequence in the same state, and is given up only if it is without a limit. Every
further call returns none. So the answers are the first `n` of those without a limit. -/
theorem answer_limit_prefix (e : Engine) (goal : Term) (n budget k : Nat) :
    answer? (e.withSolutions (some n)) budget k (ofGoal goal) =
        (if k < n then answer? (e.withSolutions none) budget k (ofGoal goal) else none) ∧
      (k ≤ n → later (e.withSolutions (some n)) budget k (ofGoal goal) =
        later (e.withSolutions none) budget k (ofGoal goal)) ∧
      (k < n → givesUp (e.withSolutions (some n)) budget
        (later (e.withSolutions (some n)) budget k (ofGoal goal)) =
        givesUp (e.withSolutions none) budget
          (later (e.withSolutions none) budget k (ofGoal goal))) ∧
      (take (e.withSolutions (some n)) budget k (ofGoal goal)).1 =
        (take (e.withSolutions none) budget k (ofGoal goal)).1.take n := by
  have hlater : k ≤ n → later (e.withSolutions (some n)) budget k (ofGoal goal) =
      later (e.withSolutions none) budget k (ofGoal goal) :=
        fun hk => later_withSolutions (by simpa [ofGoal] using hk)
  have hcounts : ∀ e', (later e' budget k (ofGoal goal)).emitted = k ∨
      (later e' budget k (ofGoal goal)).emitted < k ∧
        (later e' budget k (ofGoal goal)).stage = .done := fun e' => by
    simpa [ofGoal] using later_counts e' budget k (ofGoal goal)
  have hbelow : k < n → (later (e.withSolutions none) budget k (ofGoal goal)).emitted < n :=
    fun hk => by
    have := hcounts (e.withSolutions none)
    omega
  refine ⟨?_, hlater, fun hk => ?_, take_withSolutions e budget n k (ofGoal goal)⟩
  · rw [answer?, answer?]
    by_cases hk : k < n
    · rw [if_pos hk, hlater hk.le, (next_below (hbelow hk)).1]
    · rw [if_neg hk]
      obtain hemitted | ⟨-, hdone⟩ := hcounts (e.withSolutions (some n))
      · exact next_at (by omega)
      · rw [next_done hdone]
  · rw [hlater hk.le, (next_below (hbelow hk)).2]

end Solutions

end GraphRules
