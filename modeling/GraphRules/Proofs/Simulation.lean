import GraphRules.Proofs.Reference

/-! The search simulates the reference interpreter. The goals of a run stand for the call of the
interpreter that is being worked on, and each choice on its stack for a call that is still to come,
under the bindings that its mark leads back to. Each step of a run takes these calls to other ones
with the same trace, but for the step itself and branches that were cut; so a search that ends has
come to the next answer of the interpreter, or to the end of its trace. -/
namespace GraphRules.Reference
open Search

def choiceTrace (e : Engine) (k : Nat) (b : Bindings) : Choice → Nat → Trace Nat
  | .goals _ gs, n => solve .wrapped e k n b gs
  | .clauses _ call depth cs rest, n =>
    attempts .wrapped (solve .wrapped e k) b call depth rest cs n

/-- A choice that is still to come, with the bindings it is taken up again with and the depth left
to it. -/
abbrev Frame := Nat × Bindings × Choice

def pending (e : Engine) : List Frame → Nat → Trace Nat
  | [], n => .done n
  | (k, b, c) :: fs, n => (choiceTrace e k b c n).andThen (pending e fs)

def runTrace (e : Engine) (k : Nat) (fs : List Frame) (r : Run) : Trace Nat :=
  (solve .wrapped e k r.tries r.bindings r.goals).andThen (pending e fs)

/-- Depths of at least `x` for the choices of a run. Their marks lead back to the bindings that they
are taken up again with. -/
structure Waiting (x : Nat) (r : Run) (fs : List Frame) : Prop where
  marked : r.Marked
  choices : fs.map Prod.snd = r.waiting
  fuel : ∀ f ∈ fs, x ≤ f.1

variable {e : Engine} {x m k y : Nat} {r r' r₂ : Run} {fs : List Frame} {ok : Bool} {t : Trace Nat}
  {v : Verdict × Run}

theorem Waiting.nil (hr : r.choices = []) : Waiting x r [] := by
  refine ⟨?_, ?_, nofun⟩
  · rw [Run.Marked, hr]; trivial
  · rw [Run.waiting, hr]; rfl

theorem Waiting.mono (hy : y ≤ x) (h : Waiting x r fs) : Waiting y r fs :=
  ⟨h.marked, h.choices, fun f hf => Nat.le_trans hy (h.fuel f hf)⟩

theorem Waiting.grow (h : Waiting x r fs) (hc : r'.choices = r.choices)
    (hb : r.bindings.trail <:+ r'.bindings.trail) : Waiting x r' fs := by
  obtain ⟨hmarked, hsame⟩ := Stacked.grow h.marked hb
  refine ⟨?_, ?_, h.fuel⟩
  · rwa [Run.Marked, hc]
  · rw [h.choices, Run.waiting, Run.waiting, hc, hsame]

theorem Waiting.of_eq (h : Waiting x r fs) (hc : r'.choices = r.choices)
    (hb : r'.bindings = r.bindings) : Waiting x r' fs := h.grow hc (hb ▸ List.suffix_rfl)

theorem Waiting.cons (hk : x ≤ k) (h : Waiting x r fs) {c : Choice} (hm : c.mark = r.bindings.mark)
    (hc : r'.choices = c :: r.choices) (hb : r.bindings.trail <:+ r'.bindings.trail) :
    Waiting x r' ((k, r.bindings, c) :: fs) := by
  obtain ⟨hmarked, hsame⟩ := Stacked.push h.marked hm hb
  refine ⟨?_, ?_, List.forall_mem_cons.mpr ⟨hk, h.fuel⟩⟩
  · rwa [Run.Marked, hc]
  · rw [List.map_cons, h.choices, Run.waiting, Run.waiting, hc, hsame]

/-- Trying clauses on a call comes to the first of them whose head matches, and leaves those after
it for later. -/
theorem tryClauses_spec {call : Term} {depth : Nat} {rest : List Goal} (hk : x ≤ k)
    (cs : List Clause) (hw : Waiting x r fs) (ht : tryClauses call depth rest cs r = (ok, r₂)) :
    r₂.cut = r.cut ∧
      if ok then ∃ fs₂, Waiting x r₂ fs₂ ∧
        (attempts .wrapped (solve .wrapped e k) r.bindings call depth rest cs r.tries).andThen
          (pending e fs) = runTrace e k fs₂ r₂
      else attempts .wrapped (solve .wrapped e k) r.bindings call depth rest cs
        r.tries = .done r₂.tries ∧ r₂.choices = r.choices ∧ r₂.bindings = r.bindings := by
  induction cs generalizing r with
  | nil =>
    simp only [tryClauses, Prod.mk.injEq] at ht
    obtain ⟨rfl, rfl⟩ := ht
    exact ⟨rfl, rfl, rfl, rfl⟩
  | cons c cs ih =>
    rw [tryClauses_cons] at ht
    simp only [attempts, attempt_wrapped]
    cases hb : r.bindings.unify? call (c.rename (scopeOf (r.tries + 1))).head with
    | none =>
      rw [hb] at ht
      exact ih (r := { r with tries := r.tries + 1 }) (hw.of_eq rfl rfl) ht
    | some b =>
      rw [hb] at ht
      simp only [Prod.mk.injEq] at ht
      obtain ⟨rfl, rfl⟩ := ht
      have hsuffix := Bindings.suffix_of_unify? hb
      refine ⟨rfl, ?_⟩
      cases cs with
      | nil => exact ⟨fs, hw.grow rfl hsuffix, Trace.andThen_assoc _ _ _⟩
      | cons c' cs => exact ⟨_, hw.cons hk rfl rfl hsuffix, Trace.andThen_assoc _ _ _⟩

/-- Going back comes to the first pending call that does not fail at once. -/
theorem backtrackFrom_spec {choices : List Choice} (hm : Stacked r.bindings choices)
    (hc : fs.map Prod.snd = restored r.bindings choices) (hx : ∀ f ∈ fs, x ≤ f.1)
    (hb : backtrackFrom choices r = (ok, r₂)) :
    r₂.cut = r.cut ∧
      if ok then ∃ k fs₂, x ≤ k ∧ Waiting x r₂ fs₂ ∧ pending e fs r.tries = runTrace e k fs₂ r₂
      else pending e fs r.tries = .done r₂.tries := by
  induction choices generalizing r fs with
  | nil =>
    obtain rfl : fs = [] := List.map_eq_nil_iff.mp hc
    simp only [backtrackFrom, Prod.mk.injEq] at hb
    obtain ⟨rfl, rfl⟩ := hb
    exact ⟨rfl, rfl⟩
  | cons choice choices ih =>
    obtain ⟨⟨k, b, choice⟩, fs, rfl, heq, hcs⟩ := List.map_eq_cons_iff.mp hc
    cases heq
    obtain ⟨hk, hxs⟩ := List.forall_mem_cons.mp hx
    cases choice with
    | goals mark gs =>
      simp only [backtrackFrom, Prod.mk.injEq] at hb
      obtain ⟨rfl, rfl⟩ := hb
      exact ⟨rfl, k, fs, hk, ⟨hm.2, hcs, hxs⟩, rfl⟩
    | clauses mark call depth cs rest =>
      simp only [backtrackFrom] at hb
      cases ht : tryClauses call depth rest cs
        { r with bindings := r.bindings.undoTo mark, choices } with
      | mk found r₁ =>
        have hs :=
          tryClauses_spec (e := e) (r := { r with bindings := r.bindings.undoTo mark, choices })
            hk cs
          ⟨hm.2, hcs, hxs⟩ ht
        rw [ht] at hb
        cases found with
        | true =>
          simp only [Prod.mk.injEq] at hb
          obtain ⟨rfl, rfl⟩ := hb
          obtain ⟨hcut, fs₂, hw, heq⟩ := hs
          exact ⟨hcut, k, fs₂, hk, hw, heq⟩
        | false =>
          obtain ⟨hcut, hdone, -, hbindings⟩ := hs
          have hnext := ih (r := r₁) (hbindings ▸ hm.2) (hbindings ▸ hcs) hxs hb
          have heq : pending e ((k, r.bindings.undoTo mark, .clauses mark call depth cs rest) :: fs)
              r.tries =
              pending e fs r₁.tries := congrArg (·.andThen (pending e fs)) hdone
          refine ⟨hnext.1.trans hcut, ?_⟩
          exact heq ▸ hnext.2

theorem backtrack_spec (h : Waiting x r fs) (hb : backtrack r = (ok, r₂)) :
    r₂.cut = r.cut ∧
      if ok then ∃ k fs₂, x ≤ k ∧ Waiting x r₂ fs₂ ∧ pending e fs r.tries = runTrace e k fs₂ r₂
      else pending e fs r.tries = .done r₂.tries :=
  backtrackFrom_spec h.marked h.choices h.fuel hb

def Ended (e : Engine) (x m : Nat) (r : Run) (t : Trace Nat) : Verdict × Run → Prop
  | (.found, r₂) => ∃ fs j c, Waiting x r₂ fs ∧
      Trace.Leads t j c (.answer r₂.tries r₂.bindings (pending e fs r₂.tries)) ∧
        r₂.cut = (r.cut || c)
  | (.exhausted, r₂) => ∃ j c, Trace.Leads t j c (.done r₂.tries) ∧ r₂.cut = (r.cut || c)
  | (.interrupted, _) => t.Slow m

/-- How a step follows the trace of the calls that were pending, when negated goals are given `m`
steps. -/
def Stepped (e : Engine) (x m : Nat) (r : Run) (t : Trace Nat) : Step → Prop
  | .onward r₂ => ∃ k fs j c, x ≤ k ∧ Waiting x r₂ fs ∧ Trace.Leads t j c (runTrace e k fs r₂) ∧
      r₂.cut = (r.cut || c)
  | .back r₂ => ∃ fs j c, Waiting x r₂ fs ∧ Trace.Leads t j c (pending e fs r₂.tries) ∧
    r₂.cut = (r.cut || c)
  | .interrupted _ => t.Slow m

theorem stepped_onward {b : Bindings} (hb : r.bindings.trail <:+ b.trail) (gs : List Goal)
    (hk : x ≤ k) (hw : Waiting x r fs) :
    Stepped e x m r ((solve .wrapped e k r.tries b gs).andThen (pending e fs))
      (.onward { r with bindings := b, goals := gs }) :=
  ⟨k, fs, 0, false, hk, hw.grow rfl hb, .here _, (Bool.or_false _).symm⟩

theorem stepped_back (hw : Waiting x r fs) : Stepped e x m r (pending e fs r.tries) (.back r) :=
  ⟨fs, 0, false, hw, .here _, (Bool.or_false _).symm⟩

theorem call_spec (hk : x ≤ k) (hw : Waiting x r fs) (goal : Term) (s : Signature)
    (depth : Nat) (rest : List Goal) : Stepped e x m r
      ((called .wrapped e (solve .wrapped e k) r.tries r.bindings goal s depth rest).andThen
        (pending e fs))
      (call e goal s depth rest r) := by
  unfold called
  split
  · next hf =>
    rw [call_foreign hf, foreign?]
    cases hb : (e.library.call s (goal.args.map r.bindings.resolve)).bind (equate? r.bindings) with
    | none => exact stepped_back hw
    | some b =>
      obtain ⟨es, -, hes⟩ := Option.bind_eq_some_iff.mp hb
      exact stepped_onward (suffix_of_equate? hes) rest hk hw
  · next hf =>
    rw [call_clauses (by simpa using hf)]
    split
    · exact ⟨fs, 0, true, hw.of_eq rfl rfl, .cut (.here _), (Bool.or_true _).symm⟩
    · cases ht : tryClauses goal depth rest (e.clausesOf s) r with
      | mk ok r₂ =>
        obtain ⟨hcut, hs⟩ := tryClauses_spec (e := e) hk _ hw ht
        cases ok with
        | true =>
          obtain ⟨fs₂, hw₂, heq⟩ := hs
          exact ⟨k, fs₂, 0, false, hk, hw₂, heq ▸ .here _, by rw [hcut, Bool.or_false]⟩
        | false =>
          refine ⟨fs, 0, false, hw.of_eq hs.2.1 hs.2.2, ?_, by rw [hcut, Bool.or_false]⟩
          rw [hs.1]
          exact .here _

/-- A negated goal is proved in a run of its own, which follows the call for the goal by itself. -/
theorem negate_spec (h₀ : e.limits.solutions? ≠ some 0) {prove : Run → Verdict × Run} (hk : x ≤ k)
    (hw : Waiting x r fs) (goal : Term) (depth : Nat) (rest : List Goal)
    (hp : Ended e y m (inner r goal depth) (solve .wrapped e k r.tries r.bindings [⟨goal, depth⟩])
      (prove (inner r goal depth))) :
    Stepped e x m r
      (((solve .wrapped e k r.tries r.bindings [⟨goal, depth⟩]).ifFails
        (fun n => solve .wrapped e k n r.bindings rest) id).andThen (pending e fs))
      (negate e prove goal depth rest r) := by
  unfold negate
  rw [if_neg h₀]
  revert hp
  cases prove (inner r goal depth) with
  | mk v i =>
    intro hp
    cases v with
    | found =>
      obtain ⟨_, j, c, -, hleads, hcut⟩ := hp
      have hcut' : (afterInner r i).cut = (r.cut || c) := by rw [afterInner, hcut]; rfl
      exact ⟨fs, j, c, hw.of_eq rfl rfl, (hleads.ifFails _ _).andThen _, hcut'⟩
    | exhausted =>
      obtain ⟨j, c, hleads, hcut⟩ := hp
      have hcut' : (afterInner r i).cut = (r.cut || c) := by rw [afterInner, hcut]; rfl
      exact ⟨k, fs, j, c, hk, hw.of_eq rfl rfl, (hleads.ifFails _ _).andThen _, hcut'⟩
    | interrupted => exact (Trace.Slow.ifFails hp _ _).andThen _

/-- One step on a goal is one step on the call it stands for. -/
theorem step_spec (h₀ : e.limits.solutions? ≠ some 0) (prove : Run → Verdict × Run)
    (hk : x ≤ k)
    (hp : ∀ i : Run, i.choices = [] → Ended e y m i (runTrace e k [] i) (prove i))
    (g : Goal) (rest : List Goal) (hw : Waiting x r fs) :
    Stepped e x m r ((work .wrapped e (solve .wrapped e k) r.tries r.bindings g rest).andThen
      (pending e fs)) (step e prove g rest r) := by
  unfold step work
  dsimp only
  cases task (r.bindings.walk g.term) with
  | done => exact stepped_onward List.suffix_rfl rest hk hw
  | failing => exact stepped_back hw
  | both a b => exact stepped_onward List.suffix_rfl (⟨a, g.depth⟩ :: ⟨b, g.depth⟩ :: rest) hk hw
  | either a b =>
    dsimp only
    rw [Trace.andThen_assoc]
    exact ⟨k, _, 0, false, hk, hw.cons hk rfl rfl List.suffix_rfl, .here _, (Bool.or_false _).symm⟩
  | negation a =>
    have hinner := hp (inner r a g.depth) rfl
    have heq : runTrace e k [] (inner r a g.depth) =
        solve .wrapped e k r.tries r.bindings [⟨a, g.depth⟩] :=
      Trace.andThen_done _
    rw [heq] at hinner
    exact negate_spec h₀ hk hw a g.depth rest hinner
  | comparison op a b =>
    dsimp only [Step.onlyIf]
    split
    · exact stepped_onward List.suffix_rfl rest hk hw
    · exact stepped_back hw
  | call s => exact call_spec hk hw _ s g.depth rest

theorem Ended.of_leads {u : Trace Nat} {j : Nat} {c : Bool} (hl : Trace.Leads t j c u)
    (hc : r₂.cut = (r.cut || c)) (h : Ended e x m r₂ u v) : Ended e x (m + j) r t v := by
  obtain ⟨v, r₃⟩ := v
  cases v with
  | found =>
    obtain ⟨fs, j', c', hw, hl', hc'⟩ := h
    exact ⟨fs, j + j', c || c', hw, hl.trans hl', by rw [hc', hc, Bool.or_assoc]⟩
  | exhausted =>
    obtain ⟨j', c', hl', hc'⟩ := h
    exact ⟨j + j', c || c', hl.trans hl', by rw [hc', hc, Bool.or_assoc]⟩
  | interrupted => exact Trace.Slow.of_leads hl h

/-- What is known of a search of at most `m` steps is known of one that had a step before. -/
theorem Ended.step (h : Ended e x m r t v) : Ended e x (m + 1) r (.step t) v :=
  .of_leads (.step (.here _)) (Bool.or_false _).symm h

theorem Ended.mono {m' : Nat} (hm : m' ≤ m) (h : Ended e x m r t v) : Ended e x m' r t v := by
  obtain ⟨v, r₃⟩ := v
  cases v with
  | found => exact h
  | exhausted => exact h
  | interrupted => exact Trace.Slow.mono h hm

/-- A search that ends has come to the next answer of the calls it started from, or to the end of
them. -/
theorem search_spec (h₀ : e.limits.solutions? ≠ some 0) (m : Nat) (hk : m + x ≤ k)
    (hw : Waiting (m + x) r fs) : Ended e x m r (runTrace e k fs r) (search e m r) := by
  induction m generalizing x r k fs with
  | zero => exact Trace.slow_zero _
  | succ m ih =>
    have hw' : Waiting (m + x) r fs := hw.mono (by omega)
    obtain ⟨k, rfl⟩ : ∃ k', k = k' + 1 := Nat.exists_eq_add_one.mpr (by omega)
    unfold search runTrace
    cases r.goals with
    | nil => exact ⟨fs, 0, false, hw'.mono (Nat.le_add_left _ _), .here _, (Bool.or_false _).symm⟩
    | cons g rest =>
      have hstep := step_spec h₀ (m := m) (x := m + x) (search e m) (y := x) (by omega)
        (fun i hi => ih (k := k) (by omega) (.nil hi)) g rest hw'
      refine Ended.step
        (t := (work .wrapped e (solve .wrapped e k) r.tries r.bindings g rest).andThen
          (pending e fs)) ?_
      revert hstep
      dsimp only
      cases step e (search e m) g rest r with
      | onward r₂ =>
        rintro ⟨k₂, fs₂, j, c, hk₂, hw₂, hleads, hc⟩
        exact (Ended.of_leads hleads hc (ih hk₂ hw₂)).mono (Nat.le_add_right _ _)
      | back r₂ =>
        rintro ⟨fs₂, j, c, hwait, hleads, hc⟩
        cases hb : backtrack r₂ with
        | mk ok r₃ =>
          obtain ⟨hc', hback⟩ := backtrack_spec (e := e) hwait hb
          dsimp only
          rw [hb]
          cases ok with
          | true =>
            obtain ⟨k₃, fs₃, hk₃, hw₃, heq⟩ := hback
            rw [heq] at hleads
            exact (Ended.of_leads hleads (hc'.trans hc) (ih hk₃ hw₃)).mono (Nat.le_add_right _ _)
          | false =>
            rw [show pending e fs₂ r₂.tries = .done r₃.tries from hback] at hleads
            exact ⟨j, c, hleads, hc'.trans hc⟩
      | interrupted r₂ => exact id

end GraphRules.Reference
