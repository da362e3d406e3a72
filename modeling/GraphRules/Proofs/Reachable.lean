import GraphRules.Proofs.AnswerSequence
import GraphRules.Proofs.Trail
import GraphRules.Proofs.Variants

/-! The states of a search, and how it came to them. A state stands at the end of a course: goals
were worked on one after the other, calls were opened by a clause, and a call is solved when the
goals of the clause are. Choices of a run are courses too, which the search has left and may come
back to: the mark of a choice leads back to the bindings of its course. -/
namespace GraphRules.Search

variable {e : Engine} {goal : Term} {outer : Bool} {items : List Item} {g : Goal} {b c : Bindings}
  {cs : List Term} {rest : List Goal} {choices : List Choice} {choice : Choice} {s : Signature}
  {r r' : Run}

/-- The states of the search for a goal. The first argument tells it from the searches for negated
goals inside it, which stop at their first answer. -/
inductive Reachable (e : Engine) (goal : Term) : Bool → Run → Prop
  | start : Reachable e goal true { goals := [⟨goal, 0⟩] }
  | onward {outer : Bool} {r r' : Run} {g : Goal} {rest : List Goal} {fuel : Nat}
    (h : Reachable e goal outer r) (hg : r.goals = g :: rest)
    (hs : step e (search e fuel) g rest r = .onward r') : Reachable e goal outer r'
  | back {outer : Bool} {r r' r'' : Run} {g : Goal} {rest : List Goal} {fuel : Nat}
    (h : Reachable e goal outer r) (hg : r.goals = g :: rest)
    (hs : step e (search e fuel) g rest r = .back r') (hb : backtrack r' = (true, r'')) :
    Reachable e goal outer r''
  | again {r r' : Run} (h : Reachable e goal true r) (hg : r.goals = [])
    (hb : backtrack r = (true, r')) : Reachable e goal true r'
  | inside {outer : Bool} {r : Run} {g : Goal} {rest : List Goal} {a : Term}
    (h : Reachable e goal outer r) (hg : r.goals = g :: rest)
    (ht : task (r.bindings.walk g.term) = .negation a) : Reachable e goal false (inner r a g.depth)

/-- A goal to be worked on, or the place where the goals of a clause end that a call was opened by.
-/
inductive Item where
  | goal (g : Goal)
  | exit (call : Term)

def Item.goal? : Item → Option Goal
  | .goal g => some g
  | .exit _ => none

def goalsOf (items : List Item) : List Goal := items.filterMap Item.goal?

@[simp] theorem goalsOf_nil : goalsOf [] = [] := rfl

@[simp] theorem goalsOf_goal (g : Goal) (items : List Item) :
    goalsOf (.goal g :: items) = g :: goalsOf items := rfl

@[simp] theorem goalsOf_exit (c : Term) (items : List Item) :
    goalsOf (.exit c :: items) = goalsOf items := rfl

@[simp] theorem goalsOf_append (items items' : List Item) :
    goalsOf (items ++ items') = goalsOf items ++ goalsOf items' := List.filterMap_append

@[simp] theorem goalsOf_map (gs : List Goal) : goalsOf (gs.map .goal) = gs := by
  induction gs with
  | nil => rfl
  | cons g gs ih => rw [List.map_cons, goalsOf_goal, ih]

def opened (c : Clause) (m depth : Nat) : List Goal := (c.rename m).body.map (⟨·, depth⟩)

/-- How a search comes to some bindings, with goals left and calls solved on the way. Whether a
comparison holds and whether a negated goal has an answer is left open. -/
inductive Course (e : Engine) (goal : Term) : Bool → Bindings → List Item → List Term → Prop
  | start : Course e goal true .empty [.goal ⟨goal, 0⟩] []
  | done {outer : Bool} {b : Bindings} {g : Goal} {items : List Item} {cs : List Term}
    (h : Course e goal outer b (.goal g :: items) cs) (ht : task (b.walk g.term) = .done) :
    Course e goal outer b items cs
  | both {outer : Bool} {b : Bindings} {g : Goal} {items : List Item} {cs : List Term} {s t : Term}
    (h : Course e goal outer b (.goal g :: items) cs) (ht : task (b.walk g.term) = .both s t) :
    Course e goal outer b (.goal ⟨s, g.depth⟩ :: .goal ⟨t, g.depth⟩ :: items) cs
  | left {outer : Bool} {b : Bindings} {g : Goal} {items : List Item} {cs : List Term} {s t : Term}
    (h : Course e goal outer b (.goal g :: items) cs) (ht : task (b.walk g.term) = .either s t) :
    Course e goal outer b (.goal ⟨s, g.depth⟩ :: items) cs
  | right {outer : Bool} {b : Bindings} {g : Goal} {items : List Item} {cs : List Term} {s t : Term}
    (h : Course e goal outer b (.goal g :: items) cs) (ht : task (b.walk g.term) = .either s t) :
    Course e goal outer b (.goal ⟨t, g.depth⟩ :: items) cs
  | negation {outer : Bool} {b : Bindings} {g : Goal} {items : List Item} {cs : List Term}
    {s : Term} (h : Course e goal outer b (.goal g :: items) cs)
    (ht : task (b.walk g.term) = .negation s) : Course e goal outer b items cs
  | inside {outer : Bool} {b : Bindings} {g : Goal} {items : List Item} {cs : List Term} {s : Term}
    (h : Course e goal outer b (.goal g :: items) cs) (ht : task (b.walk g.term) = .negation s) :
    Course e goal false b [.goal ⟨s, g.depth⟩] cs
  | comparison {outer : Bool} {b : Bindings} {g : Goal} {items : List Item} {cs : List Term}
    {op : String} {s t : Term} (h : Course e goal outer b (.goal g :: items) cs)
    (ht : task (b.walk g.term) = .comparison op s t) : Course e goal outer b items cs
  | foreign {outer : Bool} {b b' : Bindings} {g : Goal} {items : List Item} {cs : List Term}
    {s : Signature} {es : List (Term × Term)} (h : Course e goal outer b (.goal g :: items) cs)
    (ht : task (b.walk g.term) = .call s)
    (hc : e.library.call s ((b.walk g.term).args.map b.resolve) = some es)
    (hb : equate? b es = some b') : Course e goal outer b' items (b.walk g.term :: cs)
  | clause {outer : Bool} {b b' : Bindings} {g : Goal} {items : List Item} {cs : List Term}
    {s : Signature} {c : Clause} {m : Nat} (h : Course e goal outer b (.goal g :: items) cs)
    (ht : task (b.walk g.term) = .call s) (hc : c ∈ e.clausesOf s)
    (hb : b.unify? (b.walk g.term) (c.rename m).head = some b') :
    Course e goal outer b' ((opened c m (g.depth + 1)).map .goal ++ .exit (b.walk g.term) :: items)
      cs
  | exit {outer : Bool} {b : Bindings} {items : List Item} {cs : List Term} {c : Term}
    (h : Course e goal outer b (.exit c :: items) cs) : Course e goal outer b items (c :: cs)

/-- Calls whose goals are all done are left behind. -/
theorem Course.exits (h : Course e goal outer b items cs) :
    (∃ g items' cs', Course e goal outer b (.goal g :: items') cs' ∧
      goalsOf items = g :: goalsOf items') ∨
      goalsOf items = [] ∧ ∃ cs', Course e goal outer b [] cs' := by
  induction items generalizing cs with
  | nil => exact .inr ⟨rfl, cs, h⟩
  | cons item items ih =>
    cases item with
    | goal g => exact .inl ⟨g, items, cs, h, rfl⟩
    | exit c => exact ih h.exit

def Explains (e : Engine) (goal : Term) (outer : Bool) (b : Bindings) (gs : List Goal) : Prop :=
  ∃ items cs, Course e goal outer b items cs ∧ goalsOf items = gs

theorem Explains.cons (h : Explains e goal outer b (g :: rest)) :
    ∃ items cs, Course e goal outer b (.goal g :: items) cs ∧ goalsOf items = rest := by
  obtain ⟨items, cs, h, hgoals⟩ := h
  rcases h.exits with ⟨g', items', cs', h', heq⟩ | ⟨hnil, _⟩
  · rw [heq] at hgoals
    cases hgoals
    exact ⟨items', cs', h', rfl⟩
  · rw [hnil] at hgoals
    cases hgoals

/-- A choice comes from a course to the bindings that it is taken up again with: to its goals, or to
a call with clauses left to be tried. -/
inductive Choice.Explained (e : Engine) (goal : Term) (outer : Bool) : Bindings → Choice → Prop
  | goals {b : Bindings} {mark : Nat} {gs : List Goal} (h : Explains e goal outer b gs) :
    Explained e goal outer b (.goals mark gs)
  | clauses {b : Bindings} {mark : Nat} {g : Goal} {rest : List Goal} {s : Signature}
    {cs : List Clause} (h : Explains e goal outer b (g :: rest))
    (ht : task (b.walk g.term) = .call s) (hcs : cs ⊆ e.clausesOf s) :
    Explained e goal outer b (.clauses mark (b.walk g.term) g.depth cs rest)

/-- Choices whose marks lead back to where they come from. -/
structure Comes (e : Engine) (goal : Term) (outer : Bool) (b : Bindings) (choices : List Choice) :
    Prop where
  stacked : Stacked b choices
  explained : ∀ p ∈ restored b choices, p.2.Explained e goal outer p.1

structure Run.Explained (e : Engine) (goal : Term) (outer : Bool) (r : Run) : Prop where
  goals : Explains e goal outer r.bindings r.goals
  choices : Comes e goal outer r.bindings r.choices

theorem Comes.nil (b : Bindings) : Comes e goal outer b [] := ⟨trivial, nofun⟩

theorem Comes.grow (h : Comes e goal outer b choices) (hb : b.trail <:+ c.trail) :
    Comes e goal outer c choices := by
  obtain ⟨hstacked, hsame⟩ := h.stacked.grow hb
  exact ⟨hstacked, hsame ▸ h.explained⟩

theorem Comes.push (h : Comes e goal outer b choices) (hm : choice.mark = b.mark)
    (hchoice : choice.Explained e goal outer b) (hb : b.trail <:+ c.trail) :
    Comes e goal outer c (choice :: choices) := by
  obtain ⟨hstacked, hsame⟩ := h.stacked.push hm hb
  exact ⟨hstacked, hsame ▸ List.forall_mem_cons.mpr ⟨hchoice, h.explained⟩⟩

theorem Comes.pop (h : Comes e goal outer b (choice :: choices)) :
    choice.Explained e goal outer (b.undoTo choice.mark) ∧
      Comes e goal outer (b.undoTo choice.mark) choices := by
  obtain ⟨hchoice, hrest⟩ := List.forall_mem_cons.mp h.explained
  exact ⟨hchoice, h.stacked.2, hrest⟩

theorem tryClauses_explained {cs : List Clause} {ok : Bool}
    (h : Explains e goal outer r.bindings (g :: rest))
    (ht : task (r.bindings.walk g.term) = .call s) (hcs : cs ⊆ e.clausesOf s)
    (hr : Comes e goal outer r.bindings r.choices)
    (htry : tryClauses (r.bindings.walk g.term) g.depth rest cs r = (ok, r')) :
    Comes e goal outer r'.bindings r'.choices ∧ (ok → r'.Explained e goal outer) ∧
      (ok = false → r'.choices = r.choices) := by
  induction cs generalizing r with
  | nil =>
    simp only [tryClauses, Prod.mk.injEq] at htry
    obtain ⟨rfl, rfl⟩ := htry
    exact ⟨hr, fun h => (Bool.false_ne_true h).elim, fun _ => rfl⟩
  | cons c cs ih =>
    have hc : c ∈ e.clausesOf s := hcs (by simp)
    have hrest : cs ⊆ e.clausesOf s := fun d hd => hcs (by simp [hd])
    rw [tryClauses_cons] at htry
    cases hb : r.bindings.unify? (r.bindings.walk g.term)
      (c.rename (scopeOf (r.tries + 1))).head with
    | none =>
      rw [hb] at htry
      exact ih (r := { r with tries := r.tries + 1 }) h ht hrest hr htry
    | some b =>
      rw [hb] at htry
      simp only [Prod.mk.injEq] at htry
      obtain ⟨rfl, rfl⟩ := htry
      have hsuffix := Bindings.suffix_of_unify? hb
      obtain ⟨items, solved, hcourse, rfl⟩ := h.cons
      have hgoals : Explains e goal outer b
          ((c.rename (scopeOf (r.tries + 1))).body.map (⟨·, g.depth + 1⟩) ++ goalsOf items) := by
        refine ⟨_, solved, hcourse.clause ht hc hb, ?_⟩
        rw [goalsOf_append, goalsOf_map, goalsOf_exit]
        rfl
      cases cs with
      | nil =>
        have hchoices := hr.grow hsuffix
        exact ⟨hchoices, fun _ => ⟨hgoals, hchoices⟩, fun h => (Bool.false_ne_true h.symm).elim⟩
      | cons c' cs =>
        have hchoice : Choice.Explained e goal outer r.bindings
            (.clauses r.bindings.mark _ g.depth (c' :: cs) (goalsOf items)) :=
          .clauses h ht hrest
        have hchoices := hr.push rfl hchoice hsuffix
        exact ⟨hchoices, fun _ => ⟨hgoals, hchoices⟩, fun h => (Bool.false_ne_true h.symm).elim⟩

theorem backtrackFrom_explained (hr : Comes e goal outer r.bindings choices)
    (hb : backtrackFrom choices r = (true, r')) : r'.Explained e goal outer := by
  induction choices generalizing r with
  | nil => cases hb
  | cons choice choices ih =>
    obtain ⟨hchoice, hrest⟩ := hr.pop
    generalize hback : r.bindings.undoTo choice.mark = b at hchoice hrest
    cases hchoice with
    | @goals mark gs h =>
      cases hb
      rw [← hback] at h hrest
      exact ⟨h, hrest⟩
    | @clauses mark g rest s cs h ht hcs =>
      obtain rfl : r.bindings.undoTo mark = b := hback
      simp only [backtrackFrom] at hb
      cases htry : tryClauses ((r.bindings.undoTo mark).walk g.term) g.depth rest cs
          { r with bindings := r.bindings.undoTo mark, choices } with
      | mk ok r₁ =>
        rw [htry] at hb
        obtain ⟨hcomes, hok, hfailed⟩ :=
          tryClauses_explained (r := { r with bindings := r.bindings.undoTo mark, choices })
            h ht hcs hrest htry
        cases ok with
        | true =>
          cases hb
          exact hok rfl
        | false =>
          rw [show r₁.choices = choices from hfailed rfl] at hcomes
          exact ih hcomes hb

/-- A step leads to states that are explained: onward at once, and back by way of the choices. -/
def Step.Explained (e : Engine) (goal : Term) (outer : Bool) : Step → Prop
  | .onward r => r.Explained e goal outer
  | .back r => Comes e goal outer r.bindings r.choices
  | .interrupted _ => True

theorem call_explained (h : r.Explained e goal outer) (hg : r.goals = g :: rest)
    (ht : task (r.bindings.walk g.term) = .call s) :
    (call e (r.bindings.walk g.term) s g.depth rest r).Explained e goal outer := by
  have hgoals := h.goals
  rw [hg] at hgoals
  obtain ⟨items, cs, hcourse, hitems⟩ := hgoals.cons
  by_cases hf : e.library.isForeign s
  · rw [call_foreign hf]
    cases hb : (e.library.call s ((r.bindings.walk g.term).args.map r.bindings.resolve)).bind
      (equate? r.bindings) with
    | none => exact h.choices
    | some b =>
      obtain ⟨es, hc, hes⟩ := Option.bind_eq_some_iff.mp hb
      exact ⟨⟨items, _, hcourse.foreign ht hc hes, hitems⟩, h.choices.grow (suffix_of_equate? hes)⟩
  · rw [call_clauses (by simpa using hf)]
    split_ifs
    · exact h.choices
    · cases htry : tryClauses (r.bindings.walk g.term) g.depth rest (e.clausesOf s) r with
      | mk ok r' =>
        have hnext := tryClauses_explained hgoals ht (List.Subset.refl _) h.choices htry
        cases ok with
        | true => exact hnext.2.1 rfl
        | false => exact hnext.1

theorem step_explained (h : r.Explained e goal outer) (hg : r.goals = g :: rest)
    (prove : Run → Verdict × Run) : (step e prove g rest r).Explained e goal outer := by
  have hgoals := h.goals
  rw [hg] at hgoals
  obtain ⟨items, cs, hcourse, rfl⟩ := hgoals.cons
  simp only [step]
  cases ht : task (r.bindings.walk g.term) with
  | done => exact ⟨⟨items, cs, hcourse.done ht, rfl⟩, h.choices⟩
  | failing => exact h.choices
  | both a b => exact ⟨⟨_, cs, hcourse.both ht, rfl⟩, h.choices⟩
  | either a b =>
    have hright : Explains e goal outer r.bindings (⟨b, g.depth⟩ :: goalsOf items) :=
      ⟨_, cs, hcourse.right ht, rfl⟩
    exact ⟨⟨_, cs, hcourse.left ht, rfl⟩, h.choices.push rfl (.goals hright) List.suffix_rfl⟩
  | negation a =>
    have hgoals : Explains e goal outer r.bindings (goalsOf items) :=
      ⟨items, cs, hcourse.negation ht, rfl⟩
    dsimp only
    unfold negate
    split_ifs
    · exact ⟨hgoals, h.choices⟩
    · split
      · exact h.choices
      · exact ⟨hgoals, h.choices⟩
      · trivial
  | comparison op a b =>
    dsimp only
    unfold Step.onlyIf
    split_ifs
    · exact ⟨⟨items, cs, hcourse.comparison ht, rfl⟩, h.choices⟩
    · exact h.choices
  | call s => exact call_explained h hg ht

/-- Every state of a search comes from a course, and so do its choices. -/
theorem Reachable.explained (h : Reachable e goal outer r) : r.Explained e goal outer := by
  induction h with
  | start => exact ⟨⟨_, _, .start, rfl⟩, .nil _⟩
  | @onward outer r r' g rest fuel _ hg hs ih =>
    have hstep := step_explained ih hg (search e fuel)
    rwa [hs] at hstep
  | @back outer r r' r'' g rest fuel _ hg hs hb ih =>
    have hstep := step_explained ih hg (search e fuel)
    rw [hs] at hstep
    exact backtrackFrom_explained hstep hb
  | again _ _ hb ih => exact backtrackFrom_explained ih.choices hb
  | @inside outer r g rest a _ hg ht ih =>
    have hgoals := ih.goals
    rw [hg] at hgoals
    obtain ⟨items, cs, hcourse, _⟩ := hgoals.cons
    exact ⟨⟨_, cs, hcourse.inside ht, rfl⟩, .nil _⟩

theorem forward_equate? (hb : b.Forward) {es : List (Term × Term)} (he : equate? b es = some c) :
    c.Forward := by
  induction es generalizing b with
  | nil => cases he; exact hb
  | cons p es ih =>
    obtain ⟨s, t⟩ := p
    rw [equate?_cons] at he
    cases hu : b.unify? s t with
    | none => rw [hu] at he; cases he
    | some d => rw [hu] at he; exact ih (Bindings.unify?_forward hb hu).1 he

/-- In all bindings of a search chains of variables go forward. -/
theorem Course.forward (h : Course e goal outer b items cs) : b.Forward := by
  induction h with
  | start => exact Bindings.forward_empty
  | foreign _ _ _ hb ih => exact forward_equate? ih hb
  | clause _ _ _ hb ih => exact (Bindings.unify?_forward ih hb).1
  | done _ _ ih => exact ih
  | both _ _ ih => exact ih
  | left _ _ ih => exact ih
  | right _ _ ih => exact ih
  | negation _ _ ih => exact ih
  | inside _ _ ih => exact ih
  | comparison _ _ ih => exact ih
  | exit _ ih => exact ih

theorem Explains.forward {gs : List Goal} (h : Explains e goal outer b gs) : b.Forward := by
  obtain ⟨items, cs, hcourse, -⟩ := h
  exact hcourse.forward

theorem Choice.Explained.forward (h : choice.Explained e goal outer b) : b.Forward := by
  cases h with
  | goals h => exact h.forward
  | clauses h _ _ => exact h.forward

/-- The bindings of every state are a store that unification leads to. Each choice has its mark in
an earlier one, and going back to the mark gives just the map and the trail that it comes from. -/
theorem Reachable.restores (h : Reachable e goal outer r) :
    Store.Reached r.bindings.toStore ∧ ∀ p ∈ r.waiting, p.2.Explained e goal outer p.1 ∧
      Store.Reached p.1.toStore ∧ p.1.toStore.mark = p.2.mark ∧
      Store.Later p.2.mark p.1.toStore r.bindings.toStore ∧
      r.bindings.toStore.undoTo p.2.mark = p.1.toStore := by
  have hforward := h.explained.goals.forward
  refine ⟨hforward.reached, fun p hp => ?_⟩
  have hchoice := h.explained.choices.explained p hp
  obtain ⟨-, hmark, hback, hsuffix⟩ := h.explained.choices.stacked.mem_restored hp
  refine ⟨hchoice, hchoice.forward.reached, by rwa [Bindings.mark_toStore], ?_, ?_⟩
  · exact hmark ▸ Bindings.later_of_suffix hforward hsuffix
  · rw [← Bindings.toStore_undoTo, hback]

def Item.Tame : Item → Prop
  | .goal g => g.term.Tame
  | .exit c => c.isShallow

structure Untangled (b : Bindings) (items : List Item) (cs : List Term) : Prop where
  bindings : b.Tidy
  items : ∀ i ∈ items, i.Tame
  solved : ∀ c ∈ cs, c.isShallow

theorem Untangled.tail {i : Item} (h : Untangled b (i :: items) cs) : Untangled b items cs :=
  ⟨h.bindings, fun j hj => h.items j (by simp [hj]), h.solved⟩

theorem Untangled.cons {i : Item} (h : Untangled b items cs) (hi : i.Tame) :
    Untangled b (i :: items) cs :=
  ⟨h.bindings, List.forall_mem_cons.mpr ⟨hi, h.items⟩, h.solved⟩

theorem Untangled.task (h : Untangled b (.goal g :: items) cs) :
    (task (b.walk g.term)).Tame (b.walk g.term) := by
  have hg : g.term.Tame := h.items (.goal g) (by simp)
  exact (hg.walk h.bindings).task

theorem Untangled.call (h : Untangled b (.goal g :: items) cs)
    (ht : Search.task (b.walk g.term) = .call s) :
    ∃ p args, b.walk g.term = .apply p args ∧ args.all Term.isFlat := by
  have htask := h.task
  rwa [ht] at htask

theorem isShallow_apply {p : String} {args : List Term} (h : args.all Term.isFlat) :
    (Term.apply p args).isShallow := by
  rw [Term.isShallow, Term.args_apply]
  exact h

theorem Untangled.unify {b' : Bindings} {c : Clause} {m : Nat} (hprog : e.Functionless)
    (h : Untangled b (.goal g :: items) cs) (ht : Search.task (b.walk g.term) = .call s)
    (hc : c ∈ e.clausesOf s) (hb : b.unify? (b.walk g.term) (c.rename m).head = some b') :
    ∃ p args heads, b.walk g.term = .apply p args ∧ args.all Term.isFlat ∧ c.head = .apply p heads ∧
      heads.all Term.isFlat ∧
      Bindings.unifyAll Bindings.matchFlat b args (Term.renameList m heads) = some b' := by
  obtain ⟨p, args, hcall, hargs⟩ := h.call ht
  obtain ⟨q, heads, hhead, hheads⟩ := hprog.heads s c hc
  rw [hcall, Clause.rename, hhead, Term.apply_rename,
    Bindings.unify?_apply h.bindings p q hargs ((Term.all_isFlat_renameList m heads).trans hheads)]
    at hb
  split_ifs at hb with hpq
  exact ⟨p, args, heads, hcall, hargs, hpq ▸ hhead, hheads, hb⟩

theorem Course.untangled (hprog : e.Functionless) (hgoal : goal.Tame)
    (h : Course e goal outer b items cs) : Untangled b items cs := by
  induction h with
  | start => exact ⟨Bindings.tidy_empty, by simpa [Item.Tame] using hgoal, nofun⟩
  | done _ _ ih => exact ih.tail
  | @both _ b g items cs s t _ ht ih =>
    have htask := ih.task
    rw [ht] at htask
    have hright : Untangled b (.goal ⟨t, g.depth⟩ :: items) cs := ih.tail.cons htask.2
    exact hright.cons htask.1
  | left _ ht ih =>
    have htask := ih.task
    rw [ht] at htask
    exact ih.tail.cons htask.1
  | right _ ht ih =>
    have htask := ih.task
    rw [ht] at htask
    exact ih.tail.cons htask.2
  | negation _ _ ih => exact ih.tail
  | inside _ ht ih =>
    have htask := ih.task
    rw [ht] at htask
    exact Untangled.cons ⟨ih.bindings, nofun, ih.solved⟩ htask
  | comparison _ _ ih => exact ih.tail
  | foreign _ ht hc hb ih =>
    obtain ⟨p, args, hcall, hargs⟩ := ih.call ht
    refine ⟨(tidy_equate ih.bindings (hprog.foreign.flat_of_call hc) hb).1, ih.tail.items, ?_⟩
    exact List.forall_mem_cons.mpr ⟨hcall ▸ isShallow_apply hargs, ih.solved⟩
  | @clause _ b b' g items cs s c m _ ht hc hb ih =>
    obtain ⟨p, args, heads, hcall, hargs, _, hheads, hunify⟩ := ih.unify hprog ht hc hb
    refine ⟨(ih.bindings.unifyAll hargs ((Term.all_isFlat_renameList m heads).trans hheads)
      hunify).1, ?_, ih.solved⟩
    intro i hi
    rcases List.mem_append.mp hi with hi | hi
    · obtain ⟨g', hg', rfl⟩ := List.mem_map.mp hi
      obtain ⟨t, ht', rfl⟩ := List.mem_map.mp hg'
      exact Clause.tame_rename (hprog.bodies s c hc) m ht'
    · rcases List.mem_cons.mp hi with rfl | hi
      · exact hcall ▸ isShallow_apply hargs
      · exact ih.tail.items i hi
  | @exit _ b items cs c _ ih =>
    have hc : c.isShallow := ih.items (.exit c) (by simp)
    exact ⟨ih.bindings, ih.tail.items, List.forall_mem_cons.mpr ⟨hc, ih.solved⟩⟩

theorem Reachable.search {fuel : Nat} (h : Reachable e goal outer r)
    (hs : search e fuel r = (.found, r')) : Reachable e goal outer r' ∧ r'.goals = [] := by
  induction fuel generalizing r with
  | zero => cases hs
  | succ fuel ih =>
    simp only [Search.search] at hs
    cases hg : r.goals with
    | nil =>
      rw [hg] at hs
      cases hs
      exact ⟨h, hg⟩
    | cons g rest =>
      rw [hg] at hs
      dsimp only at hs
      cases hstep : step e (Search.search e fuel) g rest r with
      | onward r₁ =>
        rw [hstep] at hs
        exact ih (h.onward hg hstep) hs
      | back r₁ =>
        rw [hstep] at hs
        dsimp only at hs
        cases hb : backtrack r₁ with
        | mk ok r₂ =>
          rw [hb] at hs
          cases ok with
          | true => exact ih (h.back hg hstep hb) hs
          | false => cases hs
      | interrupted r₁ => rw [hstep] at hs; cases hs

end GraphRules.Search

namespace GraphRules.Solutions

open Search

variable {e : Engine} {goal : Term} {budget : Nat} {s s' : Solutions} {a : Solution}

/-- The run of a sequence of answers is in a state of the search, and at an answer when one was
given. -/
structure IsReachable (e : Engine) (goal : Term) (s : Solutions) : Prop where
  vars : s.vars = (ofGoal goal).vars
  run : s.stage ≠ .done → Reachable e goal true s.run
  answer : s.stage = .yielded → s.run.goals = []

theorem isReachable_ofGoal (e : Engine) (goal : Term) : (ofGoal goal).IsReachable e goal :=
  ⟨rfl, fun _ => .start, nofun⟩

theorem IsReachable.resumed (h : s.IsReachable e goal) {r : Run} (hr : s.resumed? = some r) :
    Reachable e goal true r := by
  unfold resumed? at hr
  split at hr
  · next hs => cases hr; exact h.run (by simp [hs])
  · next hs =>
    split at hr
    · next hb => cases hr; exact (h.run (by simp [hs])).again (h.answer hs) hb
    · cases hr
  · cases hr

theorem IsReachable.next (h : s.IsReachable e goal) (hn : s.next e budget = (some a, s')) :
    s'.IsReachable e goal ∧ s'.run.goals = [] ∧ Reachable e goal true s'.run ∧
      a = .ofVariables (ofGoal goal).vars s'.run.bindings := by
  cases hr : s.resumed? with
  | none =>
    obtain ⟨s'', hnone⟩ := next_of_not_resumed hr
    cases hn.symm.trans (hnone e budget)
  | some r =>
    rw [next_of_resumed hr] at hn
    obtain ⟨r', hfound, rfl, rfl⟩ := advance_some hn
    obtain ⟨hreach, hgoals⟩ := (h.resumed hr).search hfound
    exact ⟨⟨h.vars, fun _ => hreach, fun _ => hgoals⟩, hgoals, hreach, by rw [← h.vars]⟩

/-- Every answer is read off a state of the search in which no goals are left. -/
theorem IsReachable.mem_take (h : s.IsReachable e goal) {n : Nat} (ha : a ∈ (take e budget n s).1) :
    ∃ r, Reachable e goal true r ∧ r.goals = [] ∧
      a = .ofVariables (ofGoal goal).vars r.bindings := by
  induction n generalizing s with
  | zero => cases ha
  | succ n ih =>
    simp only [take] at ha
    cases hn : s.next e budget with
    | mk a₁ s₁ =>
      rw [hn] at ha
      cases a₁ with
      | none => cases ha
      | some a₁ =>
        obtain ⟨hs₁, hgoals, hreach, ha₁⟩ := h.next hn
        rcases List.mem_cons.mp ha with rfl | ha
        · exact ⟨s₁.run, hreach, hgoals, ha₁⟩
        · exact ih hs₁ ha

end GraphRules.Solutions
