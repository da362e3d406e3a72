import GraphRules.Proofs.FiniteSearch

/-! Searches that go the same way on two engines. Engines differ to a search only in how they answer
calls, so runs stay together as long as calls are answered alike. A deeper limit on the nesting of
clauses is such a difference: it shows only where a branch was cut, and a search that cut none has
the same answers under every deeper limit. -/
namespace GraphRules

namespace Search

variable {e e' : Engine} {prove prove' : Run → Verdict × Run} {g : Goal}
  {rest : List Goal} {r : Run}

theorem step_agree (hlimit : e'.limits.solutions? = e.limits.solutions?)
    (hprove : ∀ a, task (r.bindings.walk g.term) = .negation a → e.limits.solutions? ≠ some 0 →
      prove' (inner r a g.depth) = prove (inner r a g.depth))
    (hcall : ∀ s, task (r.bindings.walk g.term) = .call s →
      call e' (r.bindings.walk g.term) s g.depth rest r = call e
      (r.bindings.walk g.term) s g.depth rest r) :
    step e' prove' g rest r = step e prove g rest r := by
  unfold step
  dsimp only
  cases ht : task (r.bindings.walk g.term) with
  | negation a =>
    simp only [negate, hlimit]
    by_cases h₀ : e.limits.solutions? = some 0
    · rw [if_pos h₀, if_pos h₀]
    · rw [if_neg h₀, if_neg h₀, hprove a ht h₀]
  | call s => exact hcall s ht
  | _ => rfl

/-- What a run keeps: the clauses tried are counted on, and a branch that was cut is not forgotten.
-/
structure Run.Grows (r r' : Run) : Prop where
  tries : r.tries ≤ r'.tries
  uncut : r'.cut = false → r.cut = false

theorem Run.Grows.refl (r : Run) : r.Grows r := ⟨le_rfl, id⟩

theorem Run.Grows.trans {r' r'' : Run} (h : r.Grows r') (h' : r'.Grows r'') : r.Grows r'' :=
  ⟨h.tries.trans h'.tries, fun hcut => h.uncut (h'.uncut hcut)⟩

theorem tryClauses_grows (call : Term) (depth : Nat) (rest : List Goal) (cs : List Clause)
    (r : Run) : r.Grows (tryClauses call depth rest cs r).2 := by
  induction cs generalizing r with
  | nil => exact .refl r
  | cons c cs ih =>
    rw [tryClauses_cons]
    cases r.bindings.unify? call (c.rename (scopeOf (r.tries + 1))).head with
    | none =>
      have hnext : r.Grows { r with tries := r.tries + 1 } := ⟨Nat.le_succ _, id⟩
      exact hnext.trans (ih _)
    | some b => exact ⟨Nat.le_succ _, id⟩

theorem backtrackFrom_grows (choices : List Choice) (r : Run) :
    r.Grows (backtrackFrom choices r).2 := by
  induction choices generalizing r with
  | nil => exact ⟨le_rfl, id⟩
  | cons choice choices ih =>
    cases choice with
    | goals mark gs => exact ⟨le_rfl, id⟩
    | clauses mark call depth cs rest =>
      have htry := tryClauses_grows call depth rest cs
        { r with bindings := r.bindings.undoTo mark, choices }
      simp only [backtrackFrom]
      cases hr : tryClauses call depth rest cs
        { r with bindings := r.bindings.undoTo mark, choices } with
      | mk ok r₁ =>
        rw [hr] at htry
        have hgrows : r.Grows r₁ := ⟨htry.tries, htry.uncut⟩
        cases ok with
        | true => exact hgrows
        | false => exact hgrows.trans (ih r₁)

theorem backtrack_grows {r' : Run} {ok : Bool} (h : backtrack r = (ok, r')) : r.Grows r' := by
  have hgrows := backtrackFrom_grows r.choices r
  rwa [show backtrackFrom r.choices r = (ok, r') from h] at hgrows

def Step.run : Step → Run
  | .onward r => r
  | .back r => r
  | .interrupted r => r

theorem call_grows (goal : Term) (s : Signature) (depth : Nat) :
    r.Grows (call e goal s depth rest r).run := by
  by_cases hf : e.library.isForeign s
  · rw [call_foreign hf]
    cases (e.library.call s (goal.args.map r.bindings.resolve)).bind
      (equate? r.bindings) <;> exact ⟨le_rfl, id⟩
  · rw [call_clauses (by simpa using hf)]
    by_cases hd : e.limits.depth ≤ depth
    · rw [if_pos hd]
      exact ⟨le_rfl, Bool.noConfusion⟩
    · rw [if_neg hd]
      have htry := tryClauses_grows goal depth rest (e.clausesOf s) r
      cases ht : tryClauses goal depth rest (e.clausesOf s) r with
      | mk ok r' =>
        rw [ht] at htry
        cases ok <;> exact htry

theorem step_grows (hprove : ∀ i : Run, i.Grows (prove i).2) :
    r.Grows (step e prove g rest r).run := by
  unfold step
  dsimp only
  cases task (r.bindings.walk g.term) with
  | negation a =>
    have hinner := hprove (inner r a g.depth)
    simp only [negate]
    by_cases h₀ : e.limits.solutions? = some 0
    · rw [if_pos h₀]
      exact ⟨le_rfl, id⟩
    · rw [if_neg h₀]
      cases hp : prove (inner r a g.depth) with
      | mk v i =>
        rw [hp] at hinner
        have hafter : r.Grows (afterInner r i) :=
          ⟨hinner.tries, fun hcut => (Bool.or_eq_false_iff.mp hcut).1⟩
        cases v <;> exact ⟨hafter.tries, hafter.uncut⟩
  | comparison op a b =>
    dsimp only [Step.onlyIf]
    split <;> exact ⟨le_rfl, id⟩
  | call s => exact call_grows _ s g.depth
  | _ => exact ⟨le_rfl, id⟩

theorem search_grows (e : Engine) (fuel : Nat) (r : Run) : r.Grows (search e fuel r).2 := by
  induction fuel generalizing r with
  | zero => exact .refl r
  | succ fuel ih =>
    cases hg : r.goals with
    | nil => simp only [search, hg]; exact .refl r
    | cons g rest =>
      have hstep : r.Grows (step e (search e fuel) g rest r).run := step_grows ih
      simp only [search, hg]
      cases hs : step e (search e fuel) g rest r with
      | onward r₁ => rw [hs] at hstep; exact hstep.trans (ih r₁)
      | interrupted r₁ => rw [hs] at hstep; exact hstep
      | back r₁ =>
        rw [hs] at hstep
        dsimp only
        cases hb : backtrack r₁ with
        | mk ok r₂ =>
          have hback : r.Grows r₂ := hstep.trans (backtrack_grows hb)
          cases ok with
          | true => exact hback.trans (ih r₂)
          | false => exact hback

end Search

def Engine.withDepth (e : Engine) (d : Nat) : Engine :=
  { e with limits := { e.limits with depth := d } }

namespace Search

variable {e : Engine} {d : Nat} {rest : List Goal} {r : Run}

theorem call_withDepth (hd : e.limits.depth ≤ d) {goal : Term} {s : Signature} {depth : Nat}
    (hcut : (call e goal s depth rest r).run.cut = false) :
    call (e.withDepth d) goal s depth rest r = call e goal s depth rest r := by
  unfold call at hcut ⊢
  show (if e.library.isForeign s then _ else _) = _
  by_cases hf : e.library.isForeign s
  · rw [if_pos hf, if_pos hf]
    rfl
  · rw [if_neg hf] at hcut
    rw [if_neg hf, if_neg hf]
    by_cases hlimit : e.limits.depth ≤ depth
    · rw [if_pos hlimit] at hcut
      cases hcut
    · have hdeeper : ¬ d ≤ depth := by omega
      rw [if_neg hlimit]
      exact if_neg hdeeper

theorem step_withDepth (hd : e.limits.depth ≤ d) {prove prove' : Run → Verdict × Run} {g : Goal}
    (hprove : ∀ i, (prove i).2.cut = false → prove' i = prove i)
    (hcut : (step e prove g rest r).run.cut = false) :
    step (e.withDepth d) prove' g rest r = step e prove g rest r := by
  refine step_agree rfl (fun a ht h₀ => hprove _ ?_) fun s ht => ?_
  · -- what the search for the negated goal cuts is kept by the step
    simp only [step, ht, negate, if_neg h₀] at hcut
    cases hi : prove (inner r a g.depth) with
    | mk v i =>
      rw [hi] at hcut
      cases v <;> simp_all [Step.run, afterInner]
  · simp only [step, ht] at hcut
    exact call_withDepth hd hcut

theorem step_uncut {fuel : Nat} {g : Goal} (hg : r.goals = g :: rest)
    (h : (search e (fuel + 1) r).2.cut = false) :
    (step e (search e fuel) g rest r).run.cut = false := by
  simp only [search, hg] at h
  cases hs : step e (search e fuel) g rest r with
  | onward r₁ => rw [hs] at h; exact (search_grows e fuel r₁).uncut h
  | interrupted r₁ => rw [hs] at h; exact h
  | back r₁ =>
    rw [hs] at h
    dsimp only at h
    cases hb : backtrack r₁ with
    | mk ok r₂ =>
      rw [hb] at h
      refine (backtrack_grows hb).uncut ?_
      cases ok with
      | true => exact (search_grows e fuel r₂).uncut h
      | false => exact h

/-- A search that cuts no branch goes the same way under a deeper limit. -/
theorem search_withDepth (hd : e.limits.depth ≤ d) (fuel : Nat)
    (hcut : (search e fuel r).2.cut = false) : search (e.withDepth d) fuel r = search e fuel r := by
  induction fuel generalizing r with
  | zero => rfl
  | succ fuel ih =>
    cases hg : r.goals with
    | nil => simp only [search, hg]
    | cons g rest =>
      have hstep := step_withDepth hd (fun i => ih) (step_uncut hg hcut)
      simp only [search, hg, hstep] at hcut ⊢
      cases hs : step e (search e fuel) g rest r with
      | onward r₁ => rw [hs] at hcut; exact ih hcut
      | interrupted r₁ => rfl
      | back r₁ =>
        rw [hs] at hcut
        dsimp only at hcut ⊢
        cases hb : backtrack r₁ with
        | mk ok r₂ =>
          rw [hb] at hcut
          cases ok with
          | true => exact ih hcut
          | false => rfl

end Search

namespace Solutions

variable {e e' : Engine} {budget d : Nat} {s s' : Solutions} {as : List Solution}

theorem advance_limited (h : s.isLimited e = true) :
    advance e budget s = (none, { s with stage := .done }) := if_pos h

theorem advance_unlimited (h : s.isLimited e = false) :
    advance e budget s =
      match Search.search e budget s.run with
      | (.found, run) =>
        (some (.ofVariables s.vars run.bindings),
          { s with run, stage := .yielded, emitted := s.emitted + 1 })
      | (_, run) => (none, { s with run, stage := .done }) :=
  if_neg (ne_true_of_eq_false h)

theorem run_advance (h : s.isLimited e = false) :
    (advance e budget s).2.run = (Search.search e budget s.run).2 := by
  rw [advance_unlimited h]
  cases Search.search e budget s.run with
  | mk v r => cases v <;> rfl

theorem advance_agree (hlimit : e'.limits.solutions? = e.limits.solutions?)
    (hsearch : s.isLimited e = false →
    Search.search e' budget s.run = Search.search e budget s.run) :
    advance e' budget s = advance e budget s := by
  have hsame : s.isLimited e' = s.isLimited e := by simp only [isLimited, hlimit]
  cases hl : s.isLimited e with
  | true => rw [advance_limited hl, advance_limited (hsame.trans hl)]
  | false => rw [advance_unlimited hl, advance_unlimited (hsame.trans hl), hsearch hl]

theorem next_agree (hlimit : e'.limits.solutions? = e.limits.solutions?)
    (hsearch : ∀ r, s.resumed? = some r → s.isLimited e = false →
      Search.search e' budget r = Search.search e budget r) :
    s.next e' budget = s.next e budget := by
  cases hr : s.resumed? with
  | none =>
    obtain ⟨s', hnext⟩ := next_of_not_resumed hr
    rw [hnext e', hnext e]
  | some r =>
    rw [next_of_resumed hr, next_of_resumed hr]
    exact advance_agree hlimit fun hl => hsearch r hr hl

theorem resumed_grows {r : Search.Run} (h : s.resumed? = some r) : s.run.Grows r := by
  obtain ⟨run, vars, stage, emitted⟩ := s
  cases stage with
  | fresh => cases h; exact .refl run
  | yielded =>
    simp only [resumed?] at h
    cases hb : Search.backtrack run with
    | mk ok r₂ =>
      rw [hb] at h
      cases ok with
      | true => cases h; exact Search.backtrack_grows hb
      | false => cases h
  | done => cases h

theorem next_grows_of_not_resumed (h : s.resumed? = none) :
    s.run.Grows (s.next e budget).2.run := by
  obtain ⟨run, vars, stage, emitted⟩ := s
  cases stage with
  | fresh => cases h
  | yielded =>
    simp only [resumed?] at h
    simp only [next]
    cases hb : Search.backtrack run with
    | mk ok r₂ =>
      rw [hb] at h
      cases ok with
      | true => cases h
      | false => exact Search.backtrack_grows hb
  | done => exact .refl run

/-- When nothing was cut by the time the next answer is there, nothing was cut before, nor in the
search for it. -/
theorem uncut_of_next (h : (s.next e budget).2.run.cut = false) :
    s.run.cut = false ∧ ∀ r, s.resumed? = some r → s.isLimited e = false →
      (Search.search e budget r).2.cut = false := by
  cases hr : s.resumed? with
  | none => exact ⟨(next_grows_of_not_resumed hr).uncut h, nofun⟩
  | some r =>
    rw [next_of_resumed hr] at h
    cases hl : s.isLimited e with
    | true =>
      rw [advance_limited (s := { s with run := r }) hl] at h
      exact ⟨(resumed_grows hr).uncut h, nofun⟩
    | false =>
      rw [run_advance (s := { s with run := r }) hl] at h
      refine ⟨(resumed_grows hr).uncut ((Search.search_grows e budget r).uncut h), ?_⟩
      rintro r' hr' -
      cases hr'
      exact h

theorem next_withDepth (hd : e.limits.depth ≤ d) (hcut : (s.next e budget).2.run.cut = false)
    (hu : s.isLimited e ∨ s.givesUp e budget = false) :
    s.next (e.withDepth d) budget = s.next e budget ∧
      (s.isLimited (e.withDepth d) ∨ s.givesUp (e.withDepth d) budget = false) := by
  have hsearch : ∀ r, s.resumed? = some r → s.isLimited e = false →
      Search.search (e.withDepth d) budget r = Search.search e budget r :=
    fun r hr hl => Search.search_withDepth hd budget ((uncut_of_next hcut).2 r hr hl)
  refine ⟨next_agree rfl hsearch, ?_⟩
  cases hl : s.isLimited e with
  | true => exact .inl hl
  | false =>
    refine .inr ?_
    have hu : s.givesUp e budget = false := hu.resolve_left (ne_true_of_eq_false hl)
    cases hr : s.resumed? with
    | none => simp [givesUp, hr]
    | some r => simpa [givesUp, hr, hsearch r hr hl] using hu

/-- What the answers are does not depend on the steps allowed. -/
theorem Completes.unique {m n : Nat} {as' : List Solution} {t t' : Solutions}
    (h : Completes e m s as t) (h' : Completes e n s as' t') : as' = as ∧ t' = t := by
  have hmax := h.of_le (Nat.le_max_left m n)
  have hmax' := h'.of_le (Nat.le_max_right m n)
  clear h h'
  induction hmax generalizing as' with
  | last _ hn =>
    cases hmax' with
    | last _ hn' => rw [hn] at hn'; cases hn'; exact ⟨rfl, rfl⟩
    | more _ hn' _ => rw [hn] at hn'; cases hn'
  | more _ hn _ ih =>
    cases hmax' with
    | last _ hn' => rw [hn] at hn'; cases hn'
    | more _ hn' hrest =>
      rw [hn] at hn'
      cases hn'
      obtain ⟨rfl, rfl⟩ := ih hrest
      exact ⟨rfl, rfl⟩

theorem Completes.uncut (h : Completes e budget s as s') (hcut : s'.run.cut = false) :
    s.run.cut = false := by
  induction h with
  | last _ hn => exact (uncut_of_next (by rw [hn]; exact hcut)).1
  | more _ hn _ ih => exact (uncut_of_next (by rw [hn]; exact ih hcut)).1

theorem Completes.withDepth (hd : e.limits.depth ≤ d) (h : Completes e budget s as s')
    (hcut : s'.run.cut = false) : Completes (e.withDepth d) budget s as s' := by
  induction h with
  | last hu hn =>
    obtain ⟨hnext, hu⟩ := next_withDepth hd (by rw [hn]; exact hcut) hu
    exact .last hu (hnext.trans hn)
  | more hu hn hs ih =>
    obtain ⟨hnext, hu⟩ := next_withDepth hd (by rw [hn]; exact hs.uncut hcut) hu
    exact .more hu (hnext.trans hn) (ih hcut)

/-- A search that came to its end and cut no branch is final: under every deeper limit it comes to
its end with the same answers in the same order, and cuts no branch there either. -/
theorem uncut_answers_final (e : Engine) {goal : Term} {budget : Nat} {as : List Solution}
    {s : Solutions} (h : (ofGoal goal).Completes e budget as s) (hcut : s.depthExceeded = false)
    {d : Nat} (hd : e.limits.depth ≤ d) :
    (∃ s', (ofGoal goal).Completes (e.withDepth d) budget as s' ∧ s'.depthExceeded = false) ∧
      ∀ budget' as' s', (ofGoal goal).Completes (e.withDepth d) budget' as' s' →
        as' = as ∧ s'.depthExceeded = false := by
  have hdeep := h.withDepth hd hcut
  refine ⟨⟨s, hdeep, hcut⟩, fun budget' as' s' h' => ?_⟩
  obtain ⟨rfl, rfl⟩ := hdeep.unique h'
  exact ⟨rfl, hcut⟩

theorem uncut_answers_final_paths :
    ∃ as s, (ofGoal Engine.pathGoal).Completes (Engine.pathEngine.withDepth 4) 100 as s ∧
      as.length = 3 ∧ s.depthExceeded = false ∧ ∃ s',
      (ofGoal Engine.pathGoal).Completes ((Engine.pathEngine.withDepth 4).withDepth 512) 100 as s' ∧
      s'.depthExceeded = false := by
  have hrun : (collect? (Engine.pathEngine.withDepth 4) 100 10 (ofGoal Engine.pathGoal)).any
      (fun p => p.1.length = 3 && !p.2.depthExceeded) := by decide +kernel
  obtain ⟨⟨as, s⟩, hc, hp⟩ := (Option.any_eq_true _ _).mp hrun
  obtain ⟨hlen, hcut⟩ := Bool.and_eq_true_iff.mp hp
  have hcut : s.depthExceeded = false := by simpa using hcut
  have h := completes_of_collect hc
  exact ⟨as, s, h, of_decide_eq_true hlen, hcut, (uncut_answers_final _ h hcut (by decide)).1⟩

end Solutions

end GraphRules
