import GraphRules.Library.Standard
import GraphRules.Proofs.Simulation

/-! Answers asked for one at a time, and the trace they are read off. Between two answers the
sequence stands for what is left of the trace, and every answer is the next one of the trace. -/
namespace GraphRules

open Search
open Reference (Trace Counting Waiting Ended runTrace pending)

namespace Solutions

variable {e : Engine} {x budget n : Nat} {s s' : Solutions} {t : Trace Nat} {a : Solution}

def resumed? (s : Solutions) : Option Run :=
  match s.stage with
  | .fresh => some s.run
  | .yielded =>
    match backtrack s.run with
    | (true, r) => some r
    | (false, _) => none
  | .done => none

def givesUp (e : Engine) (budget : Nat) (s : Solutions) : Bool :=
  s.resumed?.any fun r => (search e budget r).1 = .interrupted

/-- All answers to come, asked for one at a time until there is none, with the state that is left.
There are none when a search is given up, or there are `n` answers or more. -/
def collect? (e : Engine) (budget : Nat) : Nat → Solutions → Option (List Solution × Solutions)
  | 0, _ => none
  | n + 1, s =>
    if s.givesUp e budget then none
    else
      match s.next e budget with
      | (none, s) => some ([], s)
      | (some a, s) => (collect? e budget n s).map fun (as, s) => (a :: as, s)

theorem next_of_resumed {r : Run} (h : s.resumed? = some r) :
    s.next e budget = advance e budget { s with run := r } := by
  obtain ⟨run, vars, stage, emitted⟩ := s
  cases stage with
  | fresh => cases h; rfl
  | yielded =>
    simp only [resumed?] at h
    simp only [next]
    generalize backtrack run = v at h ⊢
    obtain ⟨found, r'⟩ := v
    cases found with
    | true => cases h; rfl
    | false => cases h
  | done => cases h

theorem next_of_not_resumed (h : s.resumed? = none) :
    ∃ s', ∀ e budget, s.next e budget = (none, s') := by
  obtain ⟨run, vars, stage, emitted⟩ := s
  cases stage with
  | fresh => cases h
  | yielded =>
    simp only [resumed?] at h
    simp only [next]
    generalize backtrack run = v at h ⊢
    obtain ⟨found, r⟩ := v
    cases found with
    | true => cases h
    | false => exact ⟨_, fun _ _ => rfl⟩
  | done => exact ⟨_, fun _ _ => rfl⟩

theorem advance_some (h : advance e budget s = (some a, s')) :
    ∃ r, search e budget s.run = (.found, r) ∧ a = .ofVariables s.vars r.bindings ∧
      s' = { s with run := r, stage := .yielded, emitted := s.emitted + 1 } := by
  obtain hlim | hlim : advance e budget s = _ ∨ advance e budget s = _ := ite_eq_or_eq _ _ _
  · rw [hlim] at h
    cases h
  · rw [hlim] at h
    cases hs : search e budget s.run with
    | mk v r =>
      rw [hs] at h
      cases v with
      | found => cases h; exact ⟨r, rfl, rfl, rfl⟩
      | exhausted => cases h
      | interrupted => cases h

theorem advance_none (h₀ : e.limits.solutions? = none) (h : advance e budget s = (none, s')) :
    (search e budget s.run).1 ≠ .found ∧ s'.run = (search e budget s.run).2 := by
  simp only [advance, h₀] at h
  cases hs : search e budget s.run with
  | mk v r =>
    rw [hs] at h
    cases v with
    | found => cases h
    | exhausted => cases h; exact ⟨by simp, rfl⟩
    | interrupted => cases h; exact ⟨by simp, rfl⟩

/-- A sequence of answers stands for a trace, made of calls to a depth of at least `x`. -/
def Tracks (e : Engine) (x : Nat) (s : Solutions) (t : Trace Nat) : Prop :=
  match s.stage with
  | .fresh => ∃ k fs, x ≤ k ∧ Waiting x s.run fs ∧ t = runTrace e k fs s.run
  | .yielded => ∃ fs, Waiting x s.run fs ∧ t = pending e fs s.run.tries
  | .done => t = .done s.run.tries

theorem Tracks.resumed (h : Tracks e x s t) {r : Run} (hr : s.resumed? = some r) :
    r.cut = s.run.cut ∧ ∃ k fs, x ≤ k ∧ Waiting x r fs ∧ t = runTrace e k fs r := by
  obtain ⟨run, vars, stage, emitted⟩ := s
  cases stage with
  | fresh => cases hr; exact ⟨rfl, h⟩
  | yielded =>
    obtain ⟨fs, hw, rfl⟩ := h
    simp only [resumed?] at hr
    cases hb : backtrack run with
    | mk ok r₂ =>
      rw [hb] at hr
      obtain ⟨hc, hs⟩ := Reference.backtrack_spec (e := e) hw hb
      cases ok with
      | true => cases hr; exact ⟨hc, hs⟩
      | false => cases hr
  | done => cases hr

theorem Tracks.over (h : Tracks e x s t) (hr : s.resumed? = none) (budget : Nat) :
    t = .done (s.next e budget).2.run.tries ∧ (s.next e budget).1 = none ∧
      (s.next e budget).2.run.cut = s.run.cut := by
  obtain ⟨run, vars, stage, emitted⟩ := s
  cases stage with
  | fresh => cases hr
  | yielded =>
    obtain ⟨fs, hw, rfl⟩ := h
    simp only [resumed?] at hr
    simp only [next]
    cases hb : backtrack run with
    | mk ok r₂ =>
      rw [hb] at hr
      obtain ⟨hc, hs⟩ := Reference.backtrack_spec (e := e) hw hb
      cases ok with
      | true => cases hr
      | false => exact ⟨hs, rfl, hc⟩
  | done => exact ⟨h, rfl, rfl⟩

theorem Tracks.next_some (h₀ : e.limits.solutions? ≠ some 0) (h : Tracks e (budget + x) s t)
    (hn : s.next e budget = (some a, s')) :
    ∃ n b j c u, Trace.Leads t j c (.answer n b u) ∧ Tracks e x s' u ∧ a = .ofVariables s.vars b ∧
      s'.vars = s.vars ∧ s'.run.cut = (s.run.cut || c) := by
  cases hr : s.resumed? with
  | none =>
    have hnone := (h.over hr budget).2.1
    rw [hn] at hnone
    cases hnone
  | some r =>
    obtain ⟨hcut, k, fs, hk, hw, rfl⟩ := h.resumed hr
    rw [next_of_resumed hr] at hn
    obtain ⟨r₂, hfound, rfl, rfl⟩ := advance_some hn
    have hs := Reference.search_spec h₀ budget hk hw
    rw [show search e budget r = (.found, r₂) from hfound] at hs
    obtain ⟨fs₂, j, c, hw₂, hleads, hc⟩ := hs
    exact ⟨_, _, j, c, _, hleads, ⟨fs₂, hw₂, rfl⟩, rfl, rfl, by rw [← hcut]; exact hc⟩

/-- When there is no answer and the search was not given up, the trace has come to its end. -/
theorem Tracks.next_none (h₀ : e.limits.solutions? = none) (h : Tracks e (budget + x) s t)
    (hu : s.givesUp e budget = false) (hn : s.next e budget = (none, s')) :
    ∃ j c, Trace.Leads t j c (.done s'.run.tries) ∧ s'.run.cut = (s.run.cut || c) := by
  cases hr : s.resumed? with
  | none =>
    obtain ⟨ht, _, hcut⟩ := h.over hr budget
    rw [hn] at hcut ht
    exact ⟨0, false, ht ▸ .here _, by rw [Bool.or_false]; exact hcut⟩
  | some r =>
    obtain ⟨hcut, k, fs, hk, hw, rfl⟩ := h.resumed hr
    rw [next_of_resumed hr] at hn
    obtain ⟨hfound, hrun'⟩ := advance_none h₀ hn
    have hs := Reference.search_spec (by rw [h₀]; simp) budget hk hw
    simp only [givesUp, hr, Option.any_some, decide_eq_false_iff_not] at hu
    rw [hrun', ← hcut]
    dsimp only at hfound ⊢
    generalize search e budget r = v at hs hu hfound ⊢
    obtain ⟨v, r₂⟩ := v
    cases v with
    | found => exact (hfound rfl).elim
    | exhausted =>
      exact hs
    | interrupted => exact (hu rfl).elim

theorem Tracks.slow (h₀ : e.limits.solutions? ≠ some 0) (h : Tracks e (budget + x) s t)
    (hu : s.givesUp e budget = true) : t.Slow budget := by
  cases hr : s.resumed? with
  | none => simp [givesUp, hr] at hu
  | some r =>
    obtain ⟨_, k, fs, hk, hw, rfl⟩ := h.resumed hr
    have hs := Reference.search_spec h₀ budget hk hw
    simp only [givesUp, hr, Option.any_some, decide_eq_true_eq] at hu
    revert hs
    generalize search e budget r = v at hu
    obtain ⟨v, r₂⟩ := v
    cases hu
    exact id

/-- All answers asked for are all answers of the trace, and a branch was cut when the trace says so.
-/
theorem Tracks.collect (h₀ : e.limits.solutions? = none) (h : Tracks e (n * budget) s t)
    {as : List Solution} (hc : collect? e budget n s = some (as, s')) :
    t.last? = some s'.run.tries ∧ as = (t.answers.map fun a => .ofVariables s.vars a.2) ∧
      s'.depthExceeded = (s.run.cut || t.isCut) := by
  induction n generalizing s t as with
  | zero => cases hc
  | succ n ih =>
    rw [Nat.succ_mul, Nat.add_comm] at h
    simp only [collect?] at hc
    split at hc
    · cases hc
    · next hu =>
      cases hn : s.next e budget with
      | mk a s₁ =>
        rw [hn] at hc
        cases a with
        | none =>
          cases hc
          obtain ⟨j, c, hleads, hcut⟩ := h.next_none h₀ (by simpa using hu) hn
          refine ⟨hleads.last?, ?_, ?_⟩
          · rw [hleads.answers]
            rfl
          · rw [hleads.isCut]
            exact hcut.trans (by simp [Trace.isCut])
        | some a =>
          obtain ⟨m, b, j, c, u, hleads, htracks, rfl, hvars, hcut⟩ :=
            h.next_some (by rw [h₀]; simp) hn
          simp only [Option.map_eq_some_iff, Prod.mk.injEq] at hc
          obtain ⟨⟨as₁, s₂⟩, hc, rfl, rfl⟩ := hc
          obtain ⟨hlast, rfl, hcut'⟩ := ih htracks hc
          refine ⟨hleads.last?.trans hlast, ?_, ?_⟩
          · rw [hleads.answers, hvars]
            rfl
          · rw [hcut', hcut, hleads.isCut, Bool.or_assoc]
            rfl

theorem Tracks.isSome_collect (h₀ : e.limits.solutions? ≠ some 0) (h : Tracks e (n * budget) s t)
    (he : t.ends) (hb : t.steps < budget) (hn : t.answers.length < n) :
    (collect? e budget n s).isSome := by
  induction n generalizing s t with
  | zero => cases hn
  | succ n ih =>
    rw [Nat.succ_mul, Nat.add_comm] at h
    have hu : s.givesUp e budget = false := by
      by_contra hu
      exact Trace.not_slow he hb (h.slow h₀ (by simpa using hu))
    simp only [collect?, hu]
    cases hnext : s.next e budget with
    | mk a s₁ =>
      cases a with
      | none => rfl
      | some a =>
        obtain ⟨m, b, j, c, u, hleads, htracks, _, hvars, _⟩ := h.next_some h₀ hnext
        rw [hleads.ends] at he
        rw [hleads.steps] at hb
        rw [hleads.answers] at hn
        have hlen : u.answers.length < n := by simpa [Trace.answers] using hn
        have hstep : u.steps < budget := by simp only [Trace.steps] at hb; omega
        simpa using ih htracks he hstep hlen

end Solutions

namespace Engine

open Reference (solveGoal solutions)

theorem tracks_ofGoal (e : Engine) (goal : Term) (k : Nat) :
    Solutions.Tracks e k (.ofGoal goal) (solveGoal .wrapped e k goal) :=
  ⟨k, [], Nat.le_refl _, .nil rfl, (Trace.andThen_done _).symm⟩

variable {e : Engine} {goal : Term} {budget k n : Nat}

/-- A sequence of answers that was asked for to its end gives those of the interpreter. -/
theorem solveGoal_of_collect (hs : e.limits.solutions? = none) {as : List Solution} {s : Solutions}
    (hc : Solutions.collect? e budget n (.ofGoal goal) = some (as, s)) (hk : n * budget ≤ k) :
    (solveGoal .wrapped e k goal).last? = some s.run.tries ∧ as = solutions .wrapped e k goal ∧
      s.depthExceeded = (solveGoal .wrapped e k goal).isCut := by
  have h := (e.tracks_ofGoal goal (n * budget)).collect hs hc
  have heq : solveGoal .wrapped e k goal = solveGoal .wrapped e (n * budget) goal :=
    Reference.solve_of_ends (Trace.ends_of_last? h.1) hk
  rw [solutions, heq]
  exact ⟨h.1, h.2.1, h.2.2.trans (Bool.false_or _)⟩

theorem exists_collect_of_ends (hs : e.limits.solutions? ≠ some 0)
    (hk : (solveGoal .wrapped e k goal).ends) :
    ∃ m, ∀ budget ≥ m, ∀ n ≥ m, (Solutions.collect? e budget n (.ofGoal goal)).isSome := by
  let t := solveGoal .wrapped e k goal
  refine ⟨t.steps + t.answers.length + k + 1, fun budget hb n hn => ?_⟩
  have hle : k ≤ n * budget := Nat.le_trans (by omega) (Nat.le_mul_of_pos_right n (by omega))
  have heq : solveGoal .wrapped e (n * budget) goal = t := Reference.solve_of_ends hk hle
  have h := e.tracks_ofGoal goal (n * budget)
  rw [heq] at h
  exact h.isSome_collect hs hk (by omega) (by omega)

theorem isSome_collect_of_ends (hs : e.limits.solutions? = none)
    (hk : (solveGoal .wrapped e k goal).ends) :
    ∃ m, ∀ budget ≥ m, ∀ n ≥ m, (Solutions.collect? e budget n (.ofGoal goal)).isSome :=
  exists_collect_of_ends (by simp [hs]) hk

def pathEngine : Engine :=
  let x := Term.named "X"; let y := Term.named "Y"; let z := Term.named "Z"
  { library := Standard.library
      { nodes := [⟨"a", []⟩, ⟨"b", []⟩, ⟨"c", []⟩], edges := [⟨"e", "a", "b", []⟩,
      ⟨"f", "b", "c", []⟩] }
    database := Theory.empty.insertAll
      [⟨.compound "path" [x, y], [.compound "edge" [x, y]]⟩,
        ⟨.compound "path" [x, y], [.compound "edge" [x, z], .compound "path" [z, y]]⟩,
        ⟨.compound "pair" [x, y], [.compound "node" [x]]⟩] }

def pathGoal : Term :=
  let x := Term.named "X"
  .compound "," [.compound ";" [.compound "path" [.atom "a", x], .compound "pair" [x, .named "Y"]],
    .conjunction [.compound "not" [.compound "edge" [x, .atom "c"]],
    .compound "degree" [x, .named "N"],
      .compound "<" [.named "N", .int 5]]]

end Engine

end GraphRules
