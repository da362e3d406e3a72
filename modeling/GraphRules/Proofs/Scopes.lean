import GraphRules.Proofs.FreshCopies
import GraphRules.Proofs.GoalReferences
import GraphRules.Proofs.Lockstep

/-! Scopes keep the copies of clauses apart. A run never mentions a variable of a scope that was not
given out yet, and a clause is copied into the next scope, so that its copy has no variable in
common with the run it is tried in, as long as there are scopes left that were not given out before.
-/
namespace GraphRules

open Search

namespace Term

theorem mem_occurrencesList {v : Var} {ts : List Term} :
    v ∈ occurrencesList ts ↔ ∃ t ∈ ts, v ∈ t.occurrences := by
  induction ts with
  | nil => simp [occurrencesList]
  | cons t ts ih => simp [occurrencesList, ih]

def Within (n : Nat) (t : Term) : Prop := ∀ v ∈ t.occurrences, v.scope ≤ n

variable {m n : Nat} {t : Term}

theorem Within.mono (h : t.Within m) (hmn : m ≤ n) : t.Within n := fun v hv => (h v hv).trans hmn

theorem within_var {v : Var} : (Term.var v).Within n ↔ v.scope ≤ n := by simp [Within, occurrences]

theorem within_compound {f : String} {as : List Term} :
    (Term.compound f as).Within n ↔ ∀ a ∈ as, a.Within n := by
  constructor
  · intro h a ha v hv
    exact h v (mem_occurrencesList.mpr ⟨a, ha, hv⟩)
  · intro h v hv
    obtain ⟨a, ha, hv⟩ := mem_occurrencesList.mp hv
    exact h a ha v hv

theorem within_rename (n : Nat) (t : Term) : (t.rename n).Within n := by
  intro v hv
  rw [occurrences_rename] at hv
  obtain ⟨w, _, rfl⟩ := List.mem_map.mp hv
  exact le_rfl

theorem Within.args (h : t.Within n) : ∀ a ∈ t.args, a.Within n :=
  fun a ha v hv => h v (occurrences_args (mem_occurrencesList.mpr ⟨a, ha, hv⟩))

theorem Within.part (h : t.Within n) {a : Term} (ha : a ∈ (task t).parts) : a.Within n := by
  cases ht : task t with
  | both s u =>
    rw [eq_of_task_both ht] at h
    exact within_compound.mp h a (by simpa [ht, Task.parts] using ha)
  | either s u =>
    rw [eq_of_task_either ht] at h
    exact within_compound.mp h a (by simpa [ht, Task.parts] using ha)
  | negation s =>
    rw [eq_of_task_negation ht] at h
    exact within_compound.mp h a (by simpa [ht, Task.parts] using ha)
  | _ => simp [ht, Task.parts] at ha

end Term

namespace Bindings

def Within (n : Nat) (b : Bindings) : Prop := ∀ p ∈ b.trail, p.1.scope ≤ n ∧ p.2.Within n

variable {m n : Nat} {b b' : Bindings} {s t : Term}

theorem Within.mono (h : b.Within m) (hmn : m ≤ n) : b.Within n :=
  fun p hp => ⟨(h p hp).1.trans hmn, (h p hp).2.mono hmn⟩

theorem within_empty (n : Nat) : empty.Within n := fun _ hp => (List.not_mem_nil hp).elim

theorem Within.find? (h : b.Within n) {v : Var} (hv : b.find? v = some t) : t.Within n := by
  rw [find?_eq_lookup] at hv
  obtain ⟨l, l', hl, _⟩ := List.lookup_eq_some_iff.mp hv
  exact (h (v, t) (by rw [hl]; simp)).2

theorem Within.walkSteps (h : b.Within n) (k : Nat) (ht : t.Within n) :
    (b.walkSteps k t).Within n := by
  induction k generalizing t with
  | zero => exact ht
  | succ k ih =>
    cases t with
    | var v =>
      simp only [Bindings.walkSteps]
      cases hv : b.find? v with
      | none => exact ht
      | some u => exact ih (h.find? hv)
    | atom a => exact ht
    | number x => exact ht
    | compound f as => exact ht

theorem Within.walk (h : b.Within n) (ht : t.Within n) : (b.walk t).Within n := h.walkSteps _ ht

theorem Within.resolveDepth (h : b.Within n) (k : Nat) (ht : t.Within n) :
    (b.resolveDepth k t).Within n := by
  induction k generalizing t with
  | zero => exact ht
  | succ k ih =>
    have hwalk := h.walk ht
    simp only [Bindings.resolveDepth]
    split
    · next f as heq =>
      rw [heq] at hwalk
      refine Term.within_compound.mpr fun u hu => ?_
      obtain ⟨a, ha, rfl⟩ := List.mem_map.mp hu
      exact ih (Term.within_compound.mp hwalk a ha)
    · exact hwalk

theorem Within.bind (h : b.Within n) {v : Var} (hv : v.scope ≤ n) (ht : t.Within n) :
    (b.bind v t).Within n := by
  by_cases hf : b.find? v = none
  · rw [Within, trail_bind hf]
    exact List.forall_mem_cons.mpr ⟨⟨hv, ht⟩, h⟩
  · rw [Bindings.bind, dif_neg hf]
    exact h

theorem Within.unifyAll {step : Bindings → Term → Term → Option Bindings}
    (hstep : ∀ {b s t b'}, b.Within n → s.Within n → t.Within n → step b s t = some b' →
      b'.Within n) (h : b.Within n) {ss ts : List Term} (hs : ∀ s ∈ ss, s.Within n)
    (ht : ∀ t ∈ ts, t.Within n) (hu : unifyAll step b ss ts = some b') : b'.Within n := by
  induction ss generalizing b ts with
  | nil =>
    cases ts with
    | nil => cases hu; exact h
    | cons t ts => cases hu
  | cons s ss ih =>
    cases ts with
    | nil => cases hu
    | cons t ts =>
      obtain ⟨hs, hss⟩ := List.forall_mem_cons.mp hs
      obtain ⟨ht, hts⟩ := List.forall_mem_cons.mp ht
      simp only [Bindings.unifyAll] at hu
      cases hb : step b s t with
      | none => rw [hb] at hu; cases hu
      | some b₁ =>
        rw [hb] at hu
        exact ih (hstep h hs ht hb) hss hts hu

/-- Unification brings in no variables, however deep it goes. -/
theorem Within.unifyDepth (h : b.Within n) (k : Nat) (hs : s.Within n) (ht : t.Within n)
    (hu : unifyDepth k b s t = some b') : b'.Within n := by
  induction k generalizing b s t b' with
  | zero => cases hu
  | succ k ih =>
    have hs' := h.walk hs
    have ht' := h.walk ht
    rw [unifyDepth_succ] at hu
    generalize b.walk s = u at *
    generalize b.walk t = w at *
    by_cases heq : u = w
    · rw [if_pos heq] at hu
      cases hu
      exact h
    · rw [if_neg heq] at hu
      split at hu
      · cases hu
        exact h.bind (Term.within_var.mp hs') ht'
      · cases hu
        exact h.bind (Term.within_var.mp ht') hs'
      · split_ifs at hu
        exact h.unifyAll ih (Term.within_compound.mp hs') (Term.within_compound.mp ht') hu
      · cases hu

theorem Within.unify? (h : b.Within n) (hs : s.Within n) (ht : t.Within n)
    (hu : b.unify? s t = some b') : b'.Within n := by
  rw [unify?_eq] at hu
  exact h.unifyDepth _ hs ht hu

theorem Within.of_suffix (h : b.Within n) (hb : b'.trail <:+ b.trail) :
    b'.Within n := fun p hp => h p (hb.subset hp)

theorem Within.equate? (h : b.Within n) {es : List (Term × Term)}
    (hes : ∀ p ∈ es, p.1.Within n ∧ p.2.Within n) (he : equate? b es = some b') : b'.Within n := by
  induction es generalizing b with
  | nil => cases he; exact h
  | cons p es ih =>
    obtain ⟨s, t⟩ := p
    obtain ⟨hp, hes⟩ := List.forall_mem_cons.mp hes
    rw [equate?_cons] at he
    cases hb : b.unify? s t with
    | none => rw [hb] at he; cases he
    | some b₁ =>
      rw [hb] at he
      exact ih (h.unify? hp.1 hp.2 hb) hes he

end Bindings

/-- Foreign predicates whose equations have no variables of scopes past those of the arguments. The
predicates over attributes and measures are such. -/
def Library.KeepsScopes (l : Library) : Prop :=
  ∀ s args es, l.call s args = some es → ∀ n, (∀ a ∈ args, a.Within n) →
    ∀ p ∈ es, p.1.Within n ∧ p.2.Within n

theorem Term.Rel.within {R : Var → Var → Prop} {n : Nat} (hR : ∀ v w, R v w → v.scope ≤ n)
    {s t : Term} (h : s.Rel R t) (hs : s.isFlat) : s.Within n := by
  cases s with
  | var v =>
    obtain ⟨w, _, hvw⟩ := rel_var.mp h
    exact within_var.mpr (hR v w hvw)
  | atom a => exact fun v hv => (List.not_mem_nil hv).elim
  | number x => exact fun v hv => (List.not_mem_nil hv).elim
  | compound f as => cases hs

/-- A predicate that treats variables alike cannot tell apart those it is given, and so gives back
no others. -/
theorem Library.Uniform.keepsScopes {l : Library} (h : l.Uniform) : l.KeepsScopes := by
  intro s args es hc n hargs p hp
  let R : Var → Var → Prop := fun v w => v = w ∧ v.scope ≤ n
  have hR : Relator.BiUnique R :=
    ⟨fun _ _ _ h h' => h.1.trans h'.1.symm, fun _ _ _ h h' => h.1.symm.trans h'.1⟩
  have hself : Term.RelAll R args args := Term.relAll_self fun v hv => by
    obtain ⟨a, ha, hv⟩ := Term.mem_occurrencesList.mp hv
    exact ⟨rfl, hargs a ha v hv⟩
  have hcall := h.call hR s hself
  rw [hc] at hcall
  obtain ⟨es', _, hes⟩ := rel_some hcall
  obtain ⟨q, _, hpq⟩ := exists_of_mem_left hes hp
  exact ⟨hpq.left.within (fun _ _ h => h.2) hpq.flat.1,
    hpq.right.within (fun _ _ h => h.2) hpq.flat.2⟩

namespace Search

def Choice.Within (n : Nat) : Choice → Prop
  | .goals _ gs => ∀ g ∈ gs, g.term.Within n
  | .clauses _ call _ _ rest => call.Within n ∧ ∀ g ∈ rest, g.term.Within n

/-- A run whose variables are all of scopes up to the number of clauses tried. -/
structure Run.Scoped (r : Run) : Prop where
  bindings : r.bindings.Within r.tries
  goals : ∀ g ∈ r.goals, g.term.Within r.tries
  choices : ∀ c ∈ r.choices, c.Within r.tries

theorem Choice.Within.mono {m n : Nat} {c : Choice} (h : c.Within m) (hmn : m ≤ n) :
    c.Within n := by
  cases c with
  | goals mark gs => exact fun g hg => (h g hg).mono hmn
  | clauses mark call depth cs rest => exact ⟨h.1.mono hmn, fun g hg => (h.2 g hg).mono hmn⟩

variable {e : Engine} {goal call : Term} {outer : Bool} {rest : List Goal} {g : Goal} {r : Run}
  {prove : Run → Verdict × Run} {phase : Phase}

theorem Run.Scoped.raise (h : r.Scoped) {n : Nat} (hn : r.tries ≤ n) (cut : Bool) :
    Run.Scoped { r with tries := n, cut } :=
  ⟨h.bindings.mono hn, fun g hg => (h.goals g hg).mono hn, fun c hc => (h.choices c hc).mono hn⟩

theorem scopeOf_le (n : Nat) : scopeOf n ≤ n := Nat.mod_le n _

theorem tryClauses_scoped (h : r.Scoped) (hcall : call.Within r.tries)
    (hrest : ∀ g ∈ rest, g.term.Within r.tries) (depth : Nat) (cs : List Clause) :
    (tryClauses call depth rest cs r).2.Scoped := by
  induction cs generalizing r with
  | nil => exact h
  | cons c cs ih =>
    have hle := Nat.le_succ r.tries
    have hcall' := hcall.mono hle
    have hrest' : ∀ g ∈ rest, g.term.Within (r.tries + 1) := fun g hg => (hrest g hg).mono hle
    have h' : Run.Scoped { r with tries := r.tries + 1 } := h.raise hle r.cut
    have hcopy : ∀ t : Term, (t.rename (scopeOf (r.tries + 1))).Within (r.tries + 1) := fun t =>
      (Term.within_rename _ t).mono (scopeOf_le _)
    rw [tryClauses_cons]
    cases hb : r.bindings.unify? call (c.rename (scopeOf (r.tries + 1))).head with
    | none => exact ih h' hcall' hrest'
    | some b =>
      refine ⟨h'.bindings.unify? hcall' (hcopy _) hb, fun g hg => ?_, ?_⟩
      · rcases List.mem_append.mp hg with hg | hg
        · obtain ⟨u, hu, rfl⟩ := List.mem_map.mp hg
          rw [Clause.rename, Term.renameList_eq_map] at hu
          obtain ⟨t, _, rfl⟩ := List.mem_map.mp hu
          exact hcopy t
        · exact hrest' g hg
      · cases cs with
        | nil => exact h'.choices
        | cons c' cs => exact List.forall_mem_cons.mpr ⟨⟨hcall', hrest'⟩, h'.choices⟩

theorem backtrackFrom_scoped (h : r.Scoped) {choices : List Choice}
    (hc : ∀ c ∈ choices, c.Within r.tries) : (backtrackFrom choices r).2.Scoped := by
  induction choices generalizing r with
  | nil => exact ⟨h.bindings, h.goals, hc⟩
  | cons choice choices ih =>
    obtain ⟨hchoice, hrest⟩ := List.forall_mem_cons.mp hc
    have hback : ∀ mark, (r.bindings.undoTo mark).Within r.tries := fun mark =>
      h.bindings.of_suffix (Bindings.suffix_undoTo_self _ _)
    cases choice with
    | goals mark gs => exact ⟨hback mark, hchoice, hrest⟩
    | clauses mark call depth cs rest =>
      have hle := (tryClauses_grows call depth rest
        cs { r with bindings := r.bindings.undoTo mark, choices }).tries
      have htry := tryClauses_scoped (r := { r with bindings := r.bindings.undoTo mark, choices })
        ⟨hback mark, h.goals, hrest⟩ hchoice.1 hchoice.2 depth cs
      simp only [backtrackFrom]
      cases hr : tryClauses call depth rest cs
        { r with bindings := r.bindings.undoTo mark, choices } with
      | mk ok r₁ =>
        rw [hr] at htry hle
        cases ok with
        | true => exact htry
        | false => exact ih htry fun c hc => (hrest c hc).mono hle

theorem call_scoped (hlibrary : e.library.KeepsScopes) (h : r.Scoped) (hgoal : goal.Within r.tries)
    (hrest : ∀ g ∈ rest, g.term.Within r.tries) (s : Signature) (depth : Nat) :
    (Search.call e goal s depth rest r).run.Scoped := by
  by_cases hf : e.library.isForeign s
  · rw [call_foreign hf]
    cases hb : (e.library.call s (goal.args.map r.bindings.resolve)).bind (equate? r.bindings) with
    | none => exact h
    | some b =>
      obtain ⟨es, hc, hes⟩ := Option.bind_eq_some_iff.mp hb
      have hargs : ∀ a ∈ goal.args.map r.bindings.resolve, a.Within r.tries := by
        intro a ha
        obtain ⟨u, hu, rfl⟩ := List.mem_map.mp ha
        exact h.bindings.resolveDepth _ (hgoal.args u hu)
      exact ⟨h.bindings.equate? (hlibrary s _ es hc _ hargs) hes, hrest, h.choices⟩
  · rw [call_clauses (by simpa using hf)]
    by_cases hd : e.limits.depth ≤ depth
    · rw [if_pos hd]
      exact h.raise le_rfl true
    · rw [if_neg hd]
      have htry := tryClauses_scoped h hgoal hrest depth (e.clausesOf s)
      cases hr : tryClauses goal depth rest (e.clausesOf s) r with
      | mk ok r' => rw [hr] at htry; cases ok <;> exact htry

theorem step_scoped (hlibrary : e.library.KeepsScopes) (hprove : ∀ i : Run, i.Grows (prove i).2)
    (h : r.Scoped) (hg : r.goals = g :: rest) : (step e prove g rest r).run.Scoped := by
  have hgoals := h.goals
  rw [hg] at hgoals
  obtain ⟨hterm, hrest⟩ := List.forall_mem_cons.mp hgoals
  have hwalk := h.bindings.walk hterm
  have hparts : ∀ a ∈ (task (r.bindings.walk g.term)).parts, a.Within r.tries :=
    fun a ha => hwalk.part ha
  unfold step
  dsimp only
  cases ht : task (r.bindings.walk g.term) with
  | done => exact ⟨h.bindings, hrest, h.choices⟩
  | failing => exact h
  | both a b =>
    rw [ht] at hparts
    have ha := hparts a (by simp [Task.parts])
    have hb := hparts b (by simp [Task.parts])
    exact ⟨h.bindings, List.forall_mem_cons.mpr ⟨ha, List.forall_mem_cons.mpr ⟨hb, hrest⟩⟩,
      h.choices⟩
  | either a b =>
    rw [ht] at hparts
    have ha := hparts a (by simp [Task.parts])
    have hb := hparts b (by simp [Task.parts])
    have hright : ∀ g' ∈ (⟨b, g.depth⟩ :: rest : List Goal), g'.term.Within r.tries :=
      List.forall_mem_cons.mpr ⟨hb, hrest⟩
    exact ⟨h.bindings, List.forall_mem_cons.mpr ⟨ha, hrest⟩,
      List.forall_mem_cons.mpr ⟨hright, h.choices⟩⟩
  | negation a =>
    have hinner := (hprove (inner r a g.depth)).tries
    simp only [negate]
    by_cases h₀ : e.limits.solutions? = some 0
    · rw [if_pos h₀]
      exact ⟨h.bindings, hrest, h.choices⟩
    · rw [if_neg h₀]
      cases hp : prove (inner r a g.depth) with
      | mk v i =>
        rw [hp] at hinner
        have hafter : (afterInner r i).Scoped := h.raise hinner _
        cases v with
        | found => exact hafter
        | exhausted =>
          exact ⟨hafter.bindings, fun g' hg' => (hrest g' hg').mono hinner, hafter.choices⟩
        | interrupted => exact hafter
  | comparison op a b =>
    dsimp only [Step.onlyIf]
    split
    · exact ⟨h.bindings, hrest, h.choices⟩
    · exact h
  | call s => exact call_scoped hlibrary h hwalk hrest s g.depth

theorem Run.Scoped.backtrack (h : r.Scoped) {r' : Run} {ok : Bool} (hb : backtrack r = (ok, r')) :
    r'.Scoped := by
  have hscoped := backtrackFrom_scoped h h.choices
  rwa [show backtrackFrom r.choices r = (ok, r') from hb] at hscoped

/-- All states of a search are scoped, those of the searches inside it too. -/
theorem reachable_scoped (hlibrary : e.library.KeepsScopes) (hgoal : goal.Within 0)
    (h : Reachable e goal outer r) : r.Scoped := by
  induction h with
  | start =>
    refine ⟨Bindings.within_empty 0, fun g hg => ?_, fun c hc => (List.not_mem_nil hc).elim⟩
    cases List.mem_singleton.mp hg
    exact hgoal
  | @onward _ r r' g rest fuel _ hg hs ih =>
    have hstep := step_scoped hlibrary (search_grows e fuel) ih hg
    rwa [hs] at hstep
  | @back _ r r' r'' g rest fuel _ hg hs hb ih =>
    have hstep := step_scoped hlibrary (search_grows e fuel) ih hg
    rw [hs] at hstep
    exact Run.Scoped.backtrack hstep hb
  | again _ _ hb ih => exact ih.backtrack hb
  | @inside _ r g rest a _ hg ht ih =>
    have hwalk := ih.bindings.walk (ih.goals g (by rw [hg]; simp))
    refine ⟨ih.bindings, fun g' hg' => ?_, fun c hc => (List.not_mem_nil hc).elim⟩
    cases List.mem_singleton.mp hg'
    exact hwalk.part (by simp [ht, Task.parts])

/-- What a search does in a state: it works on its goals, tries a call with clauses, the first of
them next, or goes back to its choices. -/
inductive Phase where
  | working
  | trying (call : Term) (depth : Nat) (rest : List Goal) (clauses : List Clause)
  | returning

/-- The states of a search, with those it passes through between one goal and the next: every clause
it tries has one. -/
inductive Visits (e : Engine) (goal : Term) : Bool → Phase → Run → Prop
  | working {outer : Bool} {r : Run} (h : Reachable e goal outer r) : Visits e goal outer .working r
  | call {outer : Bool} {r : Run} {g : Goal} {rest : List Goal} {s : Signature}
    (h : Reachable e goal outer r) (hg : r.goals = g :: rest)
    (ht : task (r.bindings.walk g.term) = .call s) (hf : e.library.isForeign s = false)
    (hd : g.depth < e.limits.depth) :
    Visits e goal outer (.trying (r.bindings.walk g.term) g.depth rest (e.clausesOf s)) r
  | miss {outer : Bool} {r : Run} {call : Term} {depth : Nat} {rest : List Goal} {c : Clause}
    {cs : List Clause} (h : Visits e goal outer (.trying call depth rest (c :: cs)) r)
    (hu : r.bindings.unify? call (c.rename (scopeOf (r.tries + 1))).head = none) :
    Visits e goal outer (.trying call depth rest cs) { r with tries := r.tries + 1 }
  | resume {outer : Bool} {r : Run} {mark : Nat} {call : Term} {depth : Nat} {cs : List Clause}
    {rest : List Goal} {choices : List Choice} (h : Visits e goal outer .returning r)
    (hc : r.choices = .clauses mark call depth cs rest :: choices) :
    Visits e goal outer (.trying call depth rest cs)
      { r with bindings := r.bindings.undoTo mark, choices }
  | missed {outer : Bool} {r : Run} {call : Term} {depth : Nat} {rest : List Goal}
    (h : Visits e goal outer (.trying call depth rest []) r) : Visits e goal outer .returning r
  | failed {outer : Bool} {r r' : Run} {g : Goal} {rest : List Goal} {fuel : Nat}
    (h : Reachable e goal outer r) (hg : r.goals = g :: rest)
    (hs : step e (search e fuel) g rest r = .back r') : Visits e goal outer .returning r'
  | answered {r : Run} (h : Reachable e goal true r) (hg : r.goals = []) :
    Visits e goal true .returning r

def Phase.terms : Phase → List Term
  | .trying call _ rest _ => call :: rest.map Goal.term
  | _ => []

theorem Visits.scoped (hlibrary : e.library.KeepsScopes) (hgoal : goal.Within 0)
    (h : Visits e goal outer phase r) : r.Scoped ∧ ∀ t ∈ phase.terms, t.Within r.tries := by
  induction h with
  | working h => exact ⟨reachable_scoped hlibrary hgoal h, by simp [Phase.terms]⟩
  | call h hg _ _ _ =>
    have hscoped := reachable_scoped hlibrary hgoal h
    have hgoals := hscoped.goals
    rw [hg] at hgoals
    obtain ⟨hterm, hrest⟩ := List.forall_mem_cons.mp hgoals
    refine ⟨hscoped, List.forall_mem_cons.mpr ⟨hscoped.bindings.walk hterm, ?_⟩⟩
    simpa [Phase.terms] using hrest
  | @miss _ r call depth rest c cs _ _ ih =>
    have hle := Nat.le_succ r.tries
    exact ⟨ih.1.raise hle r.cut, fun t ht => (ih.2 t ht).mono hle⟩
  | resume _ hc ih =>
    have hchoices := ih.1.choices
    rw [hc] at hchoices
    obtain ⟨⟨hcall, hrest⟩, hchoices⟩ := List.forall_mem_cons.mp hchoices
    refine ⟨⟨ih.1.bindings.of_suffix (Bindings.suffix_undoTo_self _ _), ih.1.goals,
      hchoices⟩, List.forall_mem_cons.mpr ⟨hcall, ?_⟩⟩
    simpa [Phase.terms] using hrest
  | missed _ ih => exact ⟨ih.1, by simp [Phase.terms]⟩
  | @failed _ r r' g rest fuel h hg hs =>
    have hstep := step_scoped hlibrary (search_grows e fuel) (reachable_scoped hlibrary hgoal h) hg
    rw [hs] at hstep
    exact ⟨hstep, by simp [Phase.terms]⟩
  | answered h _ => exact ⟨reachable_scoped hlibrary hgoal h, by simp [Phase.terms]⟩

/-- Clauses that are left to be tried are clauses of the engine, which are copied only when their
turn comes. -/
theorem Visits.comes (h : Visits e goal outer phase r) :
    Comes e goal outer r.bindings r.choices := by
  induction h with
  | working h => exact h.explained.choices
  | call h _ _ _ _ => exact h.explained.choices
  | miss _ _ ih => exact ih
  | resume _ hc ih =>
    rw [hc] at ih
    exact ih.pop.2
  | missed _ ih => exact ih
  | @failed _ r r' g rest fuel h hg hs =>
    have hstep := step_explained h.explained hg (search e fuel)
    rwa [hs] at hstep
  | answered h _ => exact h.explained.choices

end Search

def Bindings.Mentions (b : Bindings) (v : Var) : Prop :=
  ∃ p ∈ b.trail, v = p.1 ∨ v ∈ p.2.occurrences

def Search.Choice.Mentions (v : Var) : Choice → Prop
  | .goals _ gs => ∃ g ∈ gs, v ∈ g.term.occurrences
  | .clauses _ call _ _ rest => v ∈ call.occurrences ∨ ∃ g ∈ rest, v ∈ g.term.occurrences

def Search.Run.Mentions (r : Run) (v : Var) : Prop :=
  r.bindings.Mentions v ∨ (∃ g ∈ r.goals, v ∈ g.term.occurrences) ∨ ∃ c ∈ r.choices, c.Mentions v

variable {v : Var}

theorem Bindings.Within.of_mentions {n : Nat} {b : Bindings} (h : b.Within n) (hv : b.Mentions v) :
    v.scope ≤ n := by
  obtain ⟨p, hp, rfl | hv⟩ := hv
  · exact (h p hp).1
  · exact (h p hp).2 v hv

theorem Search.Choice.Within.of_mentions {n : Nat} {c : Choice} (h : c.Within n)
    (hv : c.Mentions v) : v.scope ≤ n := by
  cases c with
  | goals mark gs =>
    obtain ⟨g, hg, hv⟩ := hv
    exact h g hg v hv
  | clauses mark call depth cs rest =>
    rcases hv with hv | ⟨g, hg, hv⟩
    · exact h.1 v hv
    · exact h.2 g hg v hv

theorem Search.Run.Scoped.of_mentions {r : Run} (h : r.Scoped) (hv : r.Mentions v) :
    v.scope ≤ r.tries := by
  rcases hv with hv | ⟨g, hg, hv⟩ | ⟨c, hc, hv⟩
  · exact h.bindings.of_mentions hv
  · exact h.goals g hg v hv
  · exact (h.choices c hc).of_mentions hv

/-- Where foreign predicates bring in no variables, a search for a goal as it is written only ever
mentions variables of scopes given out, until all of them are, and clauses left to be tried stay as
they are in the engine. So a clause that is tried has no variable in common with the run, the call
and the goals after it once it is copied, and the variables of a clause as it is written stay apart
in its copy. -/
theorem copies_share_no_variable (e : Engine) (hlibrary : e.library.KeepsScopes) (goal : Term)
    (hgoal : ∀ v ∈ goal.occurrences, v.scope = 0) :
    (∀ outer phase r, Visits e goal outer phase r →
      (r.tries < 2 ^ 32 → (∀ v, r.Mentions v → v.scope ≤ r.scope) ∧
        ∀ v ∈ (Solutions.ofGoal goal).vars, v.scope ≤ r.scope) ∧
      ∀ mark call depth cs rest, .clauses mark call depth cs rest ∈ r.choices →
        ∃ s, cs ⊆ e.clausesOf s) ∧
    (∀ outer call depth rest c cs r, Visits e goal outer (.trying call depth rest (c :: cs)) r →
      r.tries + 1 < 2 ^ 32 → ∀ v ∈ (c.rename (scopeOf (r.tries + 1))).occurrences,
        ¬ r.Mentions v ∧ v ∉ call.occurrences ∧ (∀ g ∈ rest, v ∉ g.term.occurrences) ∧
          v ∉ (Solutions.ofGoal goal).vars) ∧
    ∀ (c : Clause) (n : Nat), (∀ v ∈ c.occurrences, v.scope = 0) →
      (c.rename n).occurrences = c.occurrences.map (fun v => { v with scope := n }) ∧
      ∀ v ∈ c.occurrences, ∀ w ∈ c.occurrences,
        ({ v with scope := n } : Var) = { w with scope := n } → v = w := by
  have hwithin : goal.Within 0 := fun v hv => (hgoal v hv).le
  have hvars : ∀ v ∈ (Solutions.ofGoal goal).vars, v.scope = 0 := fun v hv =>
    hgoal v (List.mem_eraseDups.mp (List.mem_filter.mp hv).1)
  refine ⟨fun outer phase r h => ⟨fun htries => ⟨fun v hv => ?_, fun v hv => ?_⟩, ?_⟩, ?_, ?_⟩
  · rw [Run.scope, scopeOf_of_lt htries]
    exact (h.scoped hlibrary hwithin).1.of_mentions hv
  · rw [hvars v hv]
    exact Nat.zero_le _
  · intro mark call depth cs rest hc
    rw [← map_snd_restored r.bindings r.choices] at hc
    obtain ⟨⟨b, _⟩, hp, rfl⟩ := List.mem_map.mp hc
    have hchoice := h.comes.explained _ hp
    dsimp only at hchoice
    cases hchoice with
    | clauses _ _ hcs => exact ⟨_, hcs⟩
  · intro outer call depth rest c cs r h htries v hv
    obtain ⟨hscoped, hterms⟩ := h.scoped hlibrary hwithin
    obtain ⟨hcall, hrest⟩ := List.forall_mem_cons.mp hterms
    rw [scopeOf_of_lt htries, Clause.occurrences_rename] at hv
    obtain ⟨w, _, rfl⟩ := List.mem_map.mp hv
    refine ⟨fun hm => ?_, fun hm => ?_, fun g hg hm => ?_, fun hm => ?_⟩
    · have := hscoped.of_mentions hm
      dsimp only at this
      omega
    · have := hcall _ hm
      dsimp only at this
      omega
    · have := hrest g.term (List.mem_map_of_mem hg) _ hm
      dsimp only at this
      omega
    · have := hvars _ hm
      dsimp only at this
      omega
  · intro c n hc
    refine ⟨c.occurrences_rename n, fun v hv w hw hvw => ?_⟩
    have hname : v.name = w.name := (Var.mk.inj hvw).1
    calc v = ⟨v.name, 0⟩ := by rw [← hc v hv]
      _ = ⟨w.name, 0⟩ := by rw [hname]
      _ = w := by rw [← hc w hw]

def Search.Choice.tries (test : Nat → Clause → Bool) : Choice → Bool
  | .clauses mark _ _ (c :: _) _ => test mark c
  | _ => false

theorem Search.Choice.exists_of_tries {test : Nat → Clause → Bool} {choice : Choice}
    (h : choice.tries test) :
    ∃ mark call depth c cs rest, choice = .clauses mark call depth (c :: cs) rest ∧
      test mark c := by
  cases choice with
  | goals mark gs => cases h
  | clauses mark call depth cs rest =>
    cases cs with
    | nil => cases h
    | cons c cs => exact ⟨mark, call, depth, c, cs, rest, rfl, h⟩

def journeyGoal : Term :=
  .compound "," [.compound "path" [.named "X", .named "Y"],
    .compound "path" [.named "Y", .named "Z"]]

theorem copies_share_no_variable_journey :
    ∃ call depth rest c cs r,
      Visits Engine.pathEngine journeyGoal true (.trying call depth rest (c :: cs)) r ∧
      r.tries = 5 ∧ r.Mentions ⟨"X", 1⟩ ∧ ⟨"X", 6⟩ ∈ (c.rename 6).occurrences ∧
      (∀ v, r.Mentions v → v.scope ≤ 5) ∧
      (∀ v ∈ (c.rename 6).occurrences, ¬ r.Mentions v ∧ v ∉ call.occurrences) ∧
      (∀ v ∈ c.occurrences, v.scope = 0) ∧ ∀ v ∈ c.occurrences, ∀ w ∈ c.occurrences,
      ({ v with scope := 6 } : Var) = { w with scope := 6 } → v = w := by
  let test : Bindings → Nat → Clause → Bool := fun b mark c =>
    (b.undoTo mark).trail.any (fun p => p.1 = ⟨"X", 1⟩) &&
      decide (⟨"X", 6⟩ ∈ (c.rename 6).occurrences) &&
      c.occurrences.all fun v => v.scope = 0
  have hrun : (((Solutions.ofGoal journeyGoal).next Engine.pathEngine 100).1.isSome &&
      decide (((Solutions.ofGoal journeyGoal).next Engine.pathEngine 100).2.run.tries = 5) &&
      ((Solutions.ofGoal journeyGoal).next Engine.pathEngine 100).2.run.choices.head?.any
      (Choice.tries
        (test ((Solutions.ofGoal journeyGoal).next Engine.pathEngine 100).2.run.bindings))) =
        true := by
    decide +kernel
  have hlibrary : Engine.pathEngine.library.KeepsScopes := (Standard.uniform _).keepsScopes
  have hgoal : ∀ v ∈ journeyGoal.occurrences, v.scope = 0 := by decide
  cases hn : (Solutions.ofGoal journeyGoal).next Engine.pathEngine 100 with
  | mk a s =>
    rw [hn] at hrun
    simp only [Bool.and_eq_true, decide_eq_true_eq] at hrun
    obtain ⟨⟨ha, hcount⟩, hchoice⟩ := hrun
    obtain ⟨a, rfl⟩ := Option.isSome_iff_exists.mp ha
    obtain ⟨choice, hhead, htries⟩ := (Option.any_eq_true _ _).mp hchoice
    obtain ⟨choices, hchoices⟩ := List.head?_eq_some_iff.mp hhead
    obtain ⟨mark, call, depth, c, cs, rest, rfl, htest⟩ := Choice.exists_of_tries htries
    simp only [test, Bool.and_eq_true, List.any_eq_true,
      List.all_eq_true, decide_eq_true_eq] at htest
    obtain ⟨⟨⟨p, hp, hx⟩, hcopy⟩, hwritten⟩ := htest
    obtain ⟨_, hgoals, hreach, _⟩ := (Solutions.isReachable_ofGoal _ _).next hn
    have hvisits := (Visits.answered hreach hgoals).resume hchoices
    obtain ⟨hscopes, hcopies, hdistinct⟩ := copies_share_no_variable Engine.pathEngine
      hlibrary journeyGoal hgoal
    have hfew : s.run.tries + 1 < 2 ^ 32 := by omega
    refine ⟨call, depth, rest, c, cs, _, hvisits, hcount, .inl ⟨p, hp, .inl hx.symm⟩, hcopy,
      fun v hv => ?_, fun v hv => ?_, hwritten, (hdistinct c 6 hwritten).2⟩
    · have hle := ((hscopes _ _ _ hvisits).1 (Nat.lt_of_succ_lt hfew)).1 v hv
      rwa [Run.scope, show _ = 5 from hcount] at hle
    · have hapart := hcopies _ _ _ _ _ _ _ hvisits hfew v (by rwa [show _ = 5 from hcount])
      exact ⟨hapart.1, hapart.2.1⟩

/-- The copy of a clause has a variable in common with the call when a foreign predicate has brought
in one of a scope that is given out next, and when the next scope is that of the goal again. -/
theorem copies_share_a_variable :
    (∃ call depth rest c cs r,
      Visits Engine.leakEngine Engine.leakGoal true (.trying call depth rest (c :: cs)) r ∧
      r.tries = 0 ∧ (∃ v, r.Mentions v ∧ r.scope < v.scope) ∧
      ∃ v ∈ (c.rename (scopeOf (r.tries + 1))).occurrences, r.Mentions v) ∧
    pairEngine.library.KeepsScopes ∧
      ∃ call depth rest c cs r,
        Visits pairEngine pairGoal true (.trying call depth rest (c :: cs)) r ∧
        r.tries + 1 = 2 ^ 32 ∧
        ∃ v ∈ (c.rename (scopeOf (r.tries + 1))).occurrences, r.Mentions v ∧
          v ∈ call.occurrences := by
  constructor
  · let r : Run :=
      { bindings := Bindings.empty.bind ⟨"A", 0⟩ (.var ⟨"Z", 1⟩),
        goals := [⟨.compound "p" [.atom "b"], 0⟩] }
    have hreach : Reachable Engine.leakEngine Engine.leakGoal true r :=
      Advances.reachable (.step rfl (fun _ => rfl) (.step rfl (fun _ => rfl) (.refl r))) .start
    have hclauses : Engine.leakEngine.clausesOf ⟨"p", 1⟩ = [⟨.compound "p" [.named "Z"], []⟩] := by
      decide +kernel
    have hvisits := Visits.call (s := ⟨"p", 1⟩) hreach rfl rfl (by decide +kernel) (by decide)
    rw [hclauses] at hvisits
    have hmentions : r.Mentions ⟨"Z", 1⟩ := .inl ⟨_, List.mem_singleton_self _, .inr (by decide)⟩
    exact ⟨_, _, _, _, _, r, hvisits, rfl, ⟨_, hmentions, by decide⟩, _, by decide, hmentions⟩
  · refine ⟨(Standard.uniform _).keepsScopes, ?_⟩
    obtain ⟨r, hreach, htries, hempty, hgoals⟩ := reachable_pairGoal
    have hclauses : pairEngine.clausesOf ⟨"pair", 2⟩ =
        [⟨.compound "pair" [.named "Y", .named "X"], []⟩] := by
      decide +kernel
    have hwalk : r.bindings.walk (.compound "pair" [.named "X", .atom "b"]) =
        .compound "pair" [.named "X", .atom "b"] :=
      Bindings.walk_nonvar _ (by simp)
    have hvisits :=
      Visits.call (s := ⟨"pair", 2⟩) hreach hgoals (by rw [hwalk]; rfl)
        (by decide +kernel) (by decide)
    rw [hclauses, hwalk] at hvisits
    have hmentions : r.Mentions ⟨"X", 0⟩ :=
      .inr (.inl ⟨_, by rw [hgoals]; exact List.mem_singleton_self _, by decide⟩)
    exact ⟨_, _, _, _, _, r, hvisits, htries, _, by rw [htries]; decide, hmentions, by decide⟩

end GraphRules
