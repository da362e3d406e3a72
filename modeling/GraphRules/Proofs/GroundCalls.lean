import GraphRules.Proofs.Correctness
import GraphRules.Proofs.Reachable

/-! Solved calls have constants for arguments. The arguments of a call are made equal to those of
the head of a clause, and the variables of the head are arguments of calls in the body; so the
values of the arguments follow from those of calls that are still to be solved, and when none of
these is left they are fixed. -/
namespace GraphRules

open Search Reference

namespace Bindings

variable {b b' : Bindings} {ts us : List Term} {t : Term}

/-- The value of a term follows from the values of others. -/
def Determines (b : Bindings) (ts : List Term) (t : Term) : Prop :=
  ∀ θ θ' : Valuation, b.Admits θ → b.Admits θ' → (∀ u ∈ ts, u.constant θ = u.constant θ') →
    t.constant θ = t.constant θ'

theorem determines_of_mem (ht : t ∈ ts) : b.Determines ts t := fun _ _ _ _ heq => heq t ht

theorem Determines.extend (h : b.Determines ts t) (hb : ∀ θ, b'.Admits θ → b.Admits θ) :
    b'.Determines ts t :=
  fun θ θ' hθ hθ' => h θ θ' (hb θ hθ) (hb θ' hθ')

theorem Determines.trans (h : b.Determines ts t) (hts : ∀ u ∈ ts, b.Determines us u) :
    b.Determines us t :=
  fun θ θ' hθ hθ' heq => h θ θ' hθ hθ' fun u hu => hts u hu θ θ' hθ hθ' heq

/-- What follows from nothing is a constant. -/
theorem Determines.resolve (h : b.Determines [] t) (hb : b.Tidy) (ht : t.isFlat) :
    ∃ k : Constant, b.resolve t = k.toTerm := by
  rw [resolve_of_flat hb ht]
  cases t with
  | atom a => exact ⟨.atom a, walk_nonvar b (by simp)⟩
  | number x => exact ⟨.number x, walk_nonvar b (by simp)⟩
  | compound f as => cases ht
  | var v =>
    have hadmits := admits_complete hb fun _ => default
    have hfixes : b.Fixes v := ⟨_, fun θ hθ => h θ _ hθ hadmits (by simp)⟩
    exact ⟨_, hfixes.walk hb hadmits⟩

end Bindings

theorem Search.admits_equate? {b b' : Bindings} {es : List (Term × Term)} (h : b.Tidy)
    (hes : ∀ p ∈ es, p.1.isFlat ∧ p.2.isFlat) (he : equate? b es = some b') (θ : Valuation) :
    b'.Admits θ ↔ b.Admits θ ∧ ∀ p ∈ es, p.1.constant θ = p.2.constant θ := by
  induction es generalizing b with
  | nil => cases he; simp
  | cons p es ih =>
    obtain ⟨s, t⟩ := p
    have hst := hes (s, t) (by simp)
    rw [equate?_cons, Bindings.unify?_of_flat h hst.1 hst.2] at he
    cases hb : b.matchFlat s t with
    | none => rw [hb] at he; cases he
    | some b₁ =>
      rw [hb] at he
      have hrest := ih (h.matchFlat hst.1 hst.2 hb) (fun p hp => hes p (by simp [hp])) he
      rw [hrest, Bindings.admits_matchFlat h hb, List.forall_mem_cons, and_assoc]

/-- Foreign predicates that hold only of constants: an argument is one, or is made equal to one. -/
def Library.Binding (l : Library) : Prop :=
  ∀ s ts es, l.call s ts = some es → ∀ t ∈ ts, ∃ k : Constant, t = k.toTerm ∨ (t, k.toTerm) ∈ es

/-- Programs whose calls are solved only with constants for arguments. -/
structure Engine.Grounding (e : Engine) : Prop extends e.Functionless where
  clauses : ∀ s, ∀ c ∈ e.clausesOf s, ∀ v ∈ c.head.occurrences, v ∈ callVars c.body
  binding : e.library.Binding

namespace Search

def callArgs (t : Term) : List Term :=
  match task t with
  | .call _ => t.args
  | _ => []

variable {e : Engine} {goal t : Term} {outer : Bool} {b b' : Bindings} {before before' : List Term}
  {items : List Item} {cs : List Term} {s : Signature} {g : Goal}

/-- At the end of each opened call, its arguments follow from those of the calls before. -/
def Covered (b : Bindings) : List Term → List Item → Prop
  | _, [] => True
  | before, .goal g :: items => Covered b (before ++ callArgs g.term) items
  | before, .exit c :: items => (∀ t ∈ c.args, b.Determines before t) ∧
    Covered b (before ++ c.args) items

theorem Covered.extend (h : Covered b before items) (hb : ∀ θ, b'.Admits θ → b.Admits θ) :
    Covered b' before items := by
  induction items generalizing before with
  | nil => trivial
  | cons i items ih =>
    cases i with
    | goal g => exact ih h
    | exit c => exact ⟨fun t ht => (h.1 t ht).extend hb, ih h.2⟩

theorem Covered.mono (h : Covered b before items) (hbefore : ∀ t ∈ before, b.Determines before' t) :
    Covered b before' items := by
  induction items generalizing before before' with
  | nil => trivial
  | cons i items ih =>
    -- the arguments that the item adds stand on both sides
    have hmore : ∀ ts : List Term, ∀ t ∈ before ++ ts, b.Determines (before' ++ ts) t := by
      intro ts t ht
      rcases List.mem_append.mp ht with ht | ht
      · exact (hbefore t ht).trans fun u hu =>
          Bindings.determines_of_mem (List.mem_append_left _ hu)
      · exact Bindings.determines_of_mem (List.mem_append_right _ ht)
    cases i with
    | goal g => exact ih h (hmore _)
    | exit c => exact ⟨fun t ht => (h.1 t ht).trans hbefore, ih h.2 (hmore _)⟩

theorem covered_goals_append (gs : List Goal) :
    Covered b before (gs.map .goal ++ items) ↔
      Covered b (before ++ gs.flatMap fun g => callArgs g.term) items := by
  induction gs generalizing before with
  | nil => simp
  | cons g gs ih =>
    simp only [List.map_cons, List.cons_append, Covered, ih, List.flatMap_cons, List.append_assoc]

theorem callArgs_walk (h : b.Tidy) (t : Term) : callArgs (b.walk t) = callArgs t := by
  by_cases hv : ∃ v, t = .var v
  · obtain ⟨v, rfl⟩ := hv
    have hflat : (b.walk (.var v)).isFlat := h.walk rfl
    have hargs : (b.walk (.var v)).args = [] := by
      cases hw : b.walk (.var v) with
      | compound f as => rw [hw] at hflat; cases hflat
      | atom a => rfl
      | number x => rfl
      | var w => rfl
    unfold callArgs
    rw [hargs]
    split <;> rfl
  · rw [Bindings.walk_nonvar b fun v hw => hv ⟨v, hw⟩]

theorem callArgs_of_call (h : task t = .call s) : callArgs t = t.args := by
  simp [callArgs, h]

theorem callArgs_of_not_call (h : ∀ s, task t ≠ .call s) : callArgs t = [] := by
  unfold callArgs
  split
  · next s hs => exact (h s hs).elim
  · rfl

structure Grounded (b : Bindings) (items : List Item) (cs : List Term) : Prop where
  covered : Covered b [] items
  solved : ∀ c ∈ cs, ∀ t ∈ c.args, b.Determines [] t

/-- Goals other than calls say nothing about arguments, and can be left or put in place of others.
-/
theorem Grounded.skip (h : Grounded b (.goal g :: items) cs) (hb : b.Tidy)
    (ht : ∀ s, task (b.walk g.term) ≠ .call s) (gs : List Goal) :
    Grounded b (gs.map .goal ++ items) cs := by
  have hcovered : Covered b (callArgs g.term) items := h.covered
  rw [← callArgs_walk hb, callArgs_of_not_call ht] at hcovered
  exact ⟨(covered_goals_append gs).mpr (hcovered.mono nofun), h.solved⟩

theorem mem_callArgs_opened {c : Clause} {m depth : Nat} (hbody : ∀ t ∈ c.body, t.Tame) {v : Var}
    (hv : v ∈ callVars (c.rename m).body) :
    .var v ∈ (opened c m depth).flatMap fun g => callArgs g.term := by
  obtain ⟨t, ht, ⟨s, hs⟩, hv⟩ := hv
  have htask := (Clause.tame_rename hbody m ht).task
  rw [hs] at htask
  obtain ⟨p, args, rfl, hargs⟩ := htask
  rw [Term.occurrences_apply] at hv
  refine List.mem_flatMap.mpr ⟨⟨_, depth⟩, List.mem_map_of_mem ht, ?_⟩
  dsimp only
  rw [callArgs_of_call hs, Term.args_apply]
  exact var_mem_of_flat hargs hv

theorem Grounded.clause {c : Clause} {m : Nat} (hprog : e.Grounding)
    (hu : Untangled b (.goal g :: items) cs) (h : Grounded b (.goal g :: items) cs)
    (ht : task (b.walk g.term) = .call s) (hc : c ∈ e.clausesOf s)
    (hb : b.unify? (b.walk g.term) (c.rename m).head = some b') :
    Grounded b' ((opened c m (g.depth + 1)).map .goal ++ .exit (b.walk g.term) :: items) cs := by
  obtain ⟨p, args, heads, hcall, hargs, hhead, hheads, hunify⟩ :=
    hu.unify hprog.toFunctionless ht hc hb
  have hadmits : ∀ θ, b'.Admits θ ↔ b.Admits θ ∧
      args.map (Term.constant θ) = (Term.renameList m heads).map (Term.constant θ) := fun θ =>
    Bindings.admits_unifyAll hu.bindings hargs ((Term.all_isFlat_renameList m heads).trans hheads)
      hunify
  have hextend : ∀ θ, b'.Admits θ → b.Admits θ := fun θ hθ => ((hadmits θ).mp hθ).1
  have hcovered : Covered b (callArgs g.term) items := h.covered
  rw [← callArgs_walk hu.bindings, callArgs_of_call ht] at hcovered
  refine ⟨(covered_goals_append _).mpr ⟨fun t htmem θ θ' hθ hθ' heq => ?_, ?_⟩,
    fun c hc t ht => (h.solved c hc t ht).extend hextend⟩
  · -- the head has only variables of calls in the body, so its arguments have the same values
    have hheadvars : (Term.renameList m heads).map (Term.constant θ) =
        (Term.renameList m heads).map (Term.constant θ') := by
      refine Term.map_constant_congr fun v hv => ?_
      rw [Term.occurrencesList_rename] at hv
      obtain ⟨w, hw, rfl⟩ := List.mem_map.mp hv
      have hcallvar : w ∈ callVars c.body :=
        hprog.clauses s c hc w (by rw [hhead, Term.occurrences_apply]; exact hw)
      exact heq _ (mem_callArgs_opened (hprog.bodies s c hc) (callVars_rename hcallvar m))
    have hvalues : args.map (Term.constant θ) = args.map (Term.constant θ') := by
      rw [((hadmits θ).mp hθ).2, ((hadmits θ').mp hθ').2, hheadvars]
    rw [hcall, Term.args_apply] at htmem
    exact List.map_inj_left.mp hvalues t htmem
  · refine (hcovered.extend hextend).mono fun t htmem => ?_
    exact Bindings.determines_of_mem (List.mem_append_right _ htmem)

theorem Grounded.foreign {es : List (Term × Term)} (hprog : e.Grounding)
    (hu : Untangled b (.goal g :: items) cs) (h : Grounded b (.goal g :: items) cs)
    (ht : task (b.walk g.term) = .call s)
    (hc : e.library.call s ((b.walk g.term).args.map b.resolve) = some es)
    (hb : equate? b es = some b') : Grounded b' items (b.walk g.term :: cs) := by
  obtain ⟨p, args, hcall, hargs⟩ := hu.call ht
  have hadmits := admits_equate? hu.bindings (hprog.foreign.flat_of_call hc) hb
  have hextend : ∀ θ, b'.Admits θ → b.Admits θ := fun θ hθ => ((hadmits θ).mp hθ).1
  have hfixed : ∀ t ∈ (b.walk g.term).args, b'.Determines [] t := by
    intro t htmem
    have hflat : t.isFlat := by
      rw [hcall, Term.args_apply] at htmem
      exact List.all_eq_true.mp hargs t htmem
    obtain ⟨k, hk⟩ := hprog.binding _ _ _ hc _ (List.mem_map_of_mem (f := b.resolve) htmem)
    rw [Bindings.resolve_of_flat hu.bindings hflat] at hk
    have hvalue : ∀ θ, b'.Admits θ → t.constant θ = k := by
      intro θ hθ
      have hconst : k.toTerm.constant θ = k := by cases k <;> rfl
      rw [← (hextend θ hθ).walk t]
      rcases hk with hk | hk
      · rw [hk, hconst]
      · exact (((hadmits θ).mp hθ).2 _ hk).trans hconst
    exact fun θ θ' hθ hθ' _ => (hvalue θ hθ).trans (hvalue θ' hθ').symm
  have hcovered : Covered b (callArgs g.term) items := h.covered
  rw [← callArgs_walk hu.bindings, callArgs_of_call ht] at hcovered
  refine ⟨(hcovered.extend hextend).mono hfixed,
    List.forall_mem_cons.mpr ⟨hfixed, fun c hc t ht => ?_⟩⟩
  exact (h.solved c hc t ht).extend hextend

theorem Course.grounded (hprog : e.Grounding) (hgoal : goal.Tame)
    (h : Course e goal outer b items cs) : Grounded b items cs := by
  induction h with
  | start => exact ⟨trivial, nofun⟩
  | done h ht ih =>
    exact ih.skip (h.untangled hprog.toFunctionless hgoal).bindings (by simp [ht]) []
  | @both _ b g _ _ s t h ht ih =>
    exact ih.skip (h.untangled hprog.toFunctionless hgoal).bindings (by simp [ht]) [⟨s, g.depth⟩,
      ⟨t, g.depth⟩]
  | @left _ b g _ _ s t h ht ih =>
    exact ih.skip (h.untangled hprog.toFunctionless hgoal).bindings (by simp [ht]) [⟨s, g.depth⟩]
  | @right _ b g _ _ s t h ht ih =>
    exact ih.skip (h.untangled hprog.toFunctionless hgoal).bindings (by simp [ht]) [⟨t, g.depth⟩]
  | negation h ht ih =>
    exact ih.skip (h.untangled hprog.toFunctionless hgoal).bindings (by simp [ht]) []
  | inside _ _ ih => exact ⟨trivial, ih.solved⟩
  | comparison h ht ih =>
    exact ih.skip (h.untangled hprog.toFunctionless hgoal).bindings (by simp [ht]) []
  | foreign h ht hc hb ih =>
    exact ih.foreign hprog (h.untangled hprog.toFunctionless hgoal) ht hc hb
  | clause h ht hc hb ih => exact ih.clause hprog (h.untangled hprog.toFunctionless hgoal) ht hc hb
  | exit _ ih =>
    exact ⟨ih.covered.2.mono ih.covered.1, List.forall_mem_cons.mpr ⟨ih.covered.1, ih.solved⟩⟩

inductive Awaits (goal : Term) : List Item → List Term → Prop
  | start (cs : List Term) : Awaits goal [.goal ⟨goal, 0⟩] cs
  | opened (before : List Item) (cs : List Term) : Awaits goal (before ++ [.exit goal]) cs
  | solved (items : List Item) {cs : List Term} (h : goal ∈ cs) : Awaits goal items cs

theorem Awaits.tail (h : Awaits goal (.goal g :: items) cs) :
    g.term = goal ∧ items = [] ∨
      ∀ (before : List Item) (cs' : List Term), cs ⊆ cs' → Awaits goal (before ++ items) cs' := by
  generalize heq : Item.goal g :: items = all at h
  cases h with
  | start => cases heq; exact .inl ⟨rfl, rfl⟩
  | solved _ h => exact .inr fun _ _ hcs => .solved _ (hcs h)
  | opened before' =>
    cases before' with
    | nil => cases heq
    | cons i before' =>
      cases heq
      refine .inr fun before cs' _ => ?_
      have hopened : Awaits goal (before ++ before' ++ [.exit goal]) cs' := .opened _ _
      rwa [List.append_assoc] at hopened

theorem Course.awaits (hgoal : task goal = .call s) (h : Course e goal true b items cs) :
    Awaits goal items cs := by
  have hwalk : ∀ b : Bindings, b.walk goal = goal := fun b =>
    Bindings.walk_nonvar b fun v hv => by rw [hv] at hgoal; cases hgoal
  -- goals other than calls are not the one that is awaited
  have hskip : ∀ {b : Bindings} {g : Goal} {items : List Item} {cs : List Term} {k : Task},
      Awaits goal (.goal g :: items) cs → task (b.walk g.term) = k → (∀ s, k ≠ .call s) →
      ∀ before : List Item, Awaits goal (before ++ items) cs := by
    intro b g items cs k h ht hk before
    rcases h.tail with ⟨rfl, _⟩ | h
    · exact (hk s (by rw [← ht, hwalk, hgoal])).elim
    · exact h before cs (List.Subset.refl _)
  generalize houter : true = outer at h
  induction h with
  | start => exact .start _
  | done h ht ih => exact hskip (ih houter) ht nofun []
  | both h ht ih => exact hskip (ih houter) ht nofun [.goal ⟨_, _⟩, .goal ⟨_, _⟩]
  | left h ht ih => exact hskip (ih houter) ht nofun [.goal ⟨_, _⟩]
  | right h ht ih => exact hskip (ih houter) ht nofun [.goal ⟨_, _⟩]
  | negation h ht ih => exact hskip (ih houter) ht nofun []
  | inside => cases houter
  | comparison h ht ih => exact hskip (ih houter) ht nofun []
  | foreign h ht hc hb ih =>
    rcases (ih houter).tail with ⟨hg, _⟩ | hmore
    · exact .solved _ (by rw [hg, hwalk]; simp)
    · exact hmore [] _ (List.subset_cons_self _ _)
  | @clause _ b _ g items cs _ c m h ht hc hb ih =>
    rcases (ih houter).tail with ⟨hg, rfl⟩ | hmore
    · rw [hg, hwalk]
      exact .opened _ _
    · have hexit :=
        hmore ((opened c m (g.depth + 1)).map .goal ++ [.exit (b.walk g.term)])
          cs (List.Subset.refl _)
      rwa [List.append_assoc] at hexit
  | @exit _ b items cs c h ih =>
    have hafter := ih houter
    generalize heq : Item.exit c :: items = all at hafter
    cases hafter with
    | start => cases heq
    | solved _ h => exact .solved _ (List.mem_cons_of_mem _ h)
    | opened before =>
      cases before with
      | nil => cases heq; exact .solved _ (by simp)
      | cons i before => cases heq; exact .opened before _

/-- Where a course has solved a call, the arguments of the call are constants. -/
theorem Course.resolve_solved (hprog : e.Grounding) (hgoal : goal.Tame)
    (h : Course e goal outer b items cs) {c : Term} (hc : c ∈ cs) (ht : t ∈ c.args) :
    ∃ k : Constant, b.resolve t = k.toTerm := by
  have hu := h.untangled hprog.toFunctionless hgoal
  have hflat : t.isFlat := List.all_eq_true.mp (hu.solved c hc) t ht
  exact ((h.grounded hprog hgoal).solved c hc t ht).resolve hu.bindings hflat

/-- Where no goals are left, the arguments of a call that was searched for are constants. -/
theorem Reachable.resolve_goal (hprog : e.Grounding) (hgoal : goal.Tame)
    (hcall : task goal = .call s) {r : Run} (h : Reachable e goal true r) (hnil : r.goals = [])
    (ht : t ∈ goal.args) : ∃ k : Constant, r.bindings.resolve t = k.toTerm := by
  obtain ⟨items, cs, hcourse, hgoals⟩ := h.explained.goals
  rw [hnil] at hgoals
  rcases hcourse.exits with ⟨g, items', _, _, heq⟩ | ⟨_, cs', hcourse⟩
  · rw [hgoals] at heq
    cases heq
  · have hsolved : goal ∈ cs' := by
      have hawaits := hcourse.awaits hcall
      generalize hitems : ([] : List Item) = items at hawaits
      cases hawaits with
      | start => cases hitems
      | opened before => simp at hitems
      | solved _ h => exact h
    exact hcourse.resolve_solved hprog hgoal hsolved ht

end Search

end GraphRules
