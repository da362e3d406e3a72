import GraphRules.Proofs.GoalReferences
import GraphRules.Proofs.Lockstep

/-! The predicates that the search for a goal can come to call, and clauses for others, which make
no difference to it. Scripts that pass the check define no predicate of the library, so what a goal
over the library answers does not depend on the scripts that are loaded. -/
namespace GraphRules

open Search

/-- The predicates reachable from a goal: those it calls itself, taken apart, and those reachable
from the bodies of their clauses. A variable in the place of a goal may come to stand for any call.
-/
inductive Engine.Calls (e : Engine) : Term → Signature → Prop
  | call {t u : Term} {s : Signature} (hr : Reduces t u) (hu : task u = .call s) : Calls e t s
  | anything {t : Term} {v : Var} (hr : Reduces t (.var v)) (s : Signature) : Calls e t s
  | body {t u : Term} {s s' : Signature} {c : Clause} (h : Calls e t s) (hc : c ∈ e.clausesOf s)
    (hu : u ∈ c.body) (h' : Calls e u s') : Calls e t s'

namespace Search

def CallsOnly (S : Signature → Prop) (t : Term) : Prop :=
  ∀ u, Reduces t u → (∀ s, task u = .call s → S s) ∧ ∀ v, u = .var v → ∀ s, S s

variable {S : Signature → Prop} {t : Term}

theorem CallsOnly.part (h : CallsOnly S t) {a : Term} (ha : a ∈ (task t).parts) : CallsOnly S a :=
  fun u hu => h u (.part ha hu)

/-- A variable that stands for a goal allows every call, and so whatever it is bound to is allowed.
-/
theorem CallsOnly.walk (h : CallsOnly S t) (b : Bindings) : CallsOnly S (b.walk t) := by
  by_cases hv : ∃ v, t = .var v
  · obtain ⟨v, rfl⟩ := hv
    have hall : ∀ s, S s := (h _ (.self _)).2 v rfl
    exact fun u _ => ⟨fun s _ => hall s, fun _ _ => hall⟩
  · rw [Bindings.walk_nonvar b fun v e => hv ⟨v, e⟩]
    exact h

theorem parts_rename (m : Nat) (t : Term) :
    (task (t.rename m)).parts = Term.renameList m (task t).parts := by
  rw [task_rename]
  cases task t <;> rfl

theorem Reduces.of_rename {m : Nat} {t' u : Term} (h : Reduces t' u) (ht : t' = t.rename m) :
    ∃ w, u = w.rename m ∧ Reduces t w := by
  induction h generalizing t with
  | self => exact ⟨t, ht, .self t⟩
  | part ha _ ih =>
    rw [ht, parts_rename, Term.renameList_eq_map] at ha
    obtain ⟨a, ha', rfl⟩ := List.mem_map.mp ha
    obtain ⟨w, hw, hr⟩ := ih rfl
    exact ⟨w, hw, .part ha' hr⟩

theorem CallsOnly.rename (h : CallsOnly S t) (m : Nat) : CallsOnly S (t.rename m) := by
  intro u hu
  obtain ⟨w, rfl, hw⟩ := hu.of_rename rfl
  refine ⟨fun s hs => (h w hw).1 s ?_, fun v hv => ?_⟩
  · rw [task_rename] at hs
    cases ht : task w <;> rw [ht] at hs <;> cases hs
    rfl
  · cases w with
    | var x => exact (h _ hw).2 x rfl
    | atom a => cases hv
    | number x => cases hv
    | compound f as => cases hv

variable {e e' : Engine} {goal : Term} {outer : Bool} {b : Bindings}

theorem callsOnly_calls (h : ∀ s, e.Calls t s → S s) : CallsOnly S t :=
  fun _ hu => ⟨fun s hs => h s (.call hu hs), fun _ hv s => h s (.anything (hv ▸ hu) s)⟩

def Item.CallsOnly (S : Signature → Prop) : Item → Prop
  | .goal g => Search.CallsOnly S g.term
  | .exit _ => True

theorem Item.CallsOnly.part {g : Goal} (h : (Item.goal g).CallsOnly S) {k : Task}
    (hk : task (b.walk g.term) = k) {a : Term} (ha : a ∈ k.parts) (depth : Nat) :
    (Item.goal ⟨a, depth⟩).CallsOnly S :=
  (Search.CallsOnly.walk h b).part (hk ▸ ha)

/-- All goals that a course comes to call only what is reachable from the goal it started from. -/
theorem Course.callsOnly {items : List Item} {cs : List Term} (h : Course e goal outer b items cs) :
    ∀ i ∈ items, i.CallsOnly (e.Calls goal) := by
  induction h with
  | start => exact List.forall_mem_singleton.mpr (callsOnly_calls fun s => id)
  | done _ _ ih => exact (List.forall_mem_cons.mp ih).2
  | @both _ _ g _ _ s t _ ht ih =>
    obtain ⟨hg, hrest⟩ := List.forall_mem_cons.mp ih
    have hleft := hg.part ht (a := s) (by simp [Task.parts]) g.depth
    have hright := hg.part ht (a := t) (by simp [Task.parts]) g.depth
    exact List.forall_mem_cons.mpr ⟨hleft, List.forall_mem_cons.mpr ⟨hright, hrest⟩⟩
  | left _ ht ih =>
    obtain ⟨hg, hrest⟩ := List.forall_mem_cons.mp ih
    exact List.forall_mem_cons.mpr ⟨hg.part ht (by simp [Task.parts]) _, hrest⟩
  | right _ ht ih =>
    obtain ⟨hg, hrest⟩ := List.forall_mem_cons.mp ih
    exact List.forall_mem_cons.mpr ⟨hg.part ht (by simp [Task.parts]) _, hrest⟩
  | negation _ _ ih => exact (List.forall_mem_cons.mp ih).2
  | inside _ ht ih =>
    obtain ⟨hg, _⟩ := List.forall_mem_cons.mp ih
    exact List.forall_mem_singleton.mpr (hg.part ht (by simp [Task.parts]) _)
  | comparison _ _ ih => exact (List.forall_mem_cons.mp ih).2
  | foreign _ _ _ _ ih => exact (List.forall_mem_cons.mp ih).2
  | @clause _ b b' g items cs s c m _ ht hc _ ih =>
    obtain ⟨hg, hrest⟩ := List.forall_mem_cons.mp ih
    have hs : e.Calls goal s := (Search.CallsOnly.walk hg b _ (.self _)).1 s ht
    have hbody : ∀ i ∈ (opened c m (g.depth + 1)).map Item.goal, i.CallsOnly (e.Calls goal) := by
      simp only [opened, Clause.rename, Term.renameList_eq_map, List.map_map, List.forall_mem_map]
      intro t hmem
      exact (callsOnly_calls fun s' hs' => hs.body hc hmem hs').rename m
    exact List.forall_mem_append.mpr ⟨hbody, List.forall_mem_cons.mpr ⟨trivial, hrest⟩⟩
  | exit _ ih => exact (List.forall_mem_cons.mp ih).2

theorem Reachable.calls {r : Run} (h : Reachable e goal outer r) {g : Goal} {rest : List Goal}
    (hg : r.goals = g :: rest) {s : Signature} (ht : task (r.bindings.walk g.term) = .call s) :
    e.Calls goal s := by
  have hgoals := h.explained.goals
  rw [hg] at hgoals
  obtain ⟨items, cs, hcourse, _⟩ := hgoals.cons
  have hcalls : CallsOnly (e.Calls goal) g.term := hcourse.callsOnly (.goal g) List.mem_cons_self
  exact (hcalls.walk r.bindings _ (.self _)).1 s ht

end Search

structure Engine.AgreeOn (S : Signature → Prop) (e e' : Engine) : Prop where
  library : e'.library = e.library
  limits : e'.limits = e.limits
  clauses : ∀ s, S s → e'.clausesOf s = e.clausesOf s

theorem Engine.AgreeOn.mono {S S' : Signature → Prop} {e e' : Engine} (h : AgreeOn S e e')
    (hS : ∀ s, S' s → S s) :
    AgreeOn S' e e' := ⟨h.library, h.limits, fun s hs => h.clauses s (hS s hs)⟩

theorem Engine.AgreeOn.trans {S : Signature → Prop} {e e' e'' : Engine} (h : AgreeOn S e e')
    (h' : AgreeOn S e' e'') : AgreeOn S e e'' :=
  ⟨h'.library.trans h.library, h'.limits.trans h.limits, fun s hs =>
    (h'.clauses s hs).trans (h.clauses s hs)⟩

namespace Search

variable {e e' : Engine} {goal : Term} {outer : Bool}

theorem step_eq_of_agreeOn (hagree : Engine.AgreeOn (e.Calls goal) e e') {fuel : Nat}
    (ih : ∀ {outer : Bool} {r : Run}, Reachable e goal outer r → search e' fuel r = search e fuel r)
    {r : Run} (h : Reachable e goal outer r) {g : Goal} {rest : List Goal}
    (hg : r.goals = g :: rest) :
    step e' (search e' fuel) g rest r = step e (search e fuel) g rest r := by
  refine step_agree (by rw [hagree.limits]) (fun a ht _ => ih (h.inside hg ht)) fun s ht => ?_
  unfold call
  rw [hagree.library, hagree.limits, hagree.clauses s (h.calls hg ht)]

theorem search_eq_of_agreeOn (hagree : Engine.AgreeOn (e.Calls goal) e e') (fuel : Nat) {r : Run}
    (h : Reachable e goal outer r) : search e' fuel r = search e fuel r := by
  induction fuel generalizing outer r with
  | zero => rfl
  | succ fuel ih =>
    cases hg : r.goals with
    | nil => simp only [search, hg]
    | cons g rest =>
      simp only [search, hg, step_eq_of_agreeOn hagree ih h hg]
      cases hs : step e (search e fuel) g rest r with
      | onward r₁ => exact ih (h.onward hg hs)
      | interrupted r₁ => rfl
      | back r₁ =>
        dsimp only
        cases hb : backtrack r₁ with
        | mk ok r₂ =>
          cases ok with
          | true => exact ih (h.back hg hs hb)
          | false => rfl

end Search

namespace Solutions

variable {e e' : Engine} {goal : Term} {budget : Nat} {s : Solutions}

/-- Engines that agree on what is reachable from a goal give the same answers to it, and cut the
same branches. -/
theorem IsReachable.take_eq (hagree : Engine.AgreeOn (e.Calls goal) e e') (h : s.IsReachable e goal)
    (n : Nat) : take e' budget n s = take e budget n s := by
  induction n generalizing s with
  | zero => rfl
  | succ n ih =>
    have hnext : s.next e' budget = s.next e budget :=
      next_agree (by rw [hagree.limits]) fun r hr _ =>
        search_eq_of_agreeOn hagree budget (h.resumed hr)
    simp only [take, hnext]
    cases hn : s.next e budget with
    | mk a s₁ =>
      cases a with
      | none => rfl
      | some a => simp only [ih (h.next hn).1]

end Solutions

theorem Engine.Calls.of_closed {S : Signature → Prop} {e : Engine}
    (hS : ∀ s, S s → ∀ c ∈ e.clausesOf s, ∀ t ∈ c.body, CallsOnly S t) {t : Term} {s : Signature}
    (h : e.Calls t s) (ht : CallsOnly S t) : S s := by
  induction h with
  | call hr hu => exact (ht _ hr).1 _ hu
  | anything hr s => exact (ht _ hr).2 _ rfl s
  | body _ hc hu _ ih ih' => exact ih' (hS _ (ih ht) _ hc _ hu)

inductive Interleaves {α : Type} : List α → List α → List α → Prop
  | nil : Interleaves [] [] []
  | left {as bs cs : List α} (a : α) (h : Interleaves as bs cs) : Interleaves (a :: as) bs (a :: cs)
  | right {as bs cs : List α} (b : α) (h : Interleaves as bs cs) :
    Interleaves as (b :: bs) (b :: cs)

theorem Interleaves.filter_eq {α : Type} {as bs cs : List α} (h : Interleaves as bs cs)
    (p : α → Bool) (hp : ∀ b ∈ bs, p b = false) : cs.filter p = as.filter p := by
  induction h with
  | nil => rfl
  | left a _ ih => rw [List.filter_cons, List.filter_cons, ih hp]
  | right b _ ih =>
    obtain ⟨hb, hbs⟩ := List.forall_mem_cons.mp hp
    rw [List.filter_cons, hb, ih hbs]
    rfl

theorem Engine.clausesOf_load (e : Engine) (cs : List Clause) (s : Signature) :
    (e.load cs).clausesOf s = e.clausesOf s ++ cs.filter fun c => c.signature? = some s := by
  have hdatabase := Theory.clausesOf_insertAll e.database cs s
  simp only [clausesOf, load, hdatabase, List.append_assoc]

theorem Engine.agreeOn_load {S : Signature → Prop} (e : Engine) {cs ds : List Clause}
    (h : ∀ s, S s →
      ds.filter (fun c => c.signature? = some s) = cs.filter fun c => c.signature? = some s) :
    AgreeOn S (e.load cs) (e.load ds) :=
  ⟨rfl, rfl, fun s hs => by rw [clausesOf_load, clausesOf_load, h s hs]⟩

namespace Standard

def Offers (s : Signature) : Prop := (declarations.vocabulary.role? s).isSome

/-- Goals made from predicates of the library. No variable stands in the place of a goal. -/
def IsGoal (t : Term) : Prop := ∀ u, Reduces t u → u.isVar = false ∧
    ∀ s, task u = .call s → Offers s

theorem IsGoal.callsOnly {t : Term} (h : IsGoal t) : CallsOnly Offers t := by
  refine fun u hu => ⟨(h u hu).2, fun v hv => ?_⟩
  have hvar := (h u hu).1
  rw [hv] at hvar
  cases hvar

variable {s : Signature}

theorem body_eq_nil {g : Graph} {c : Clause} (hc : c ∈ (library g).theory.clausesOf s) :
    c.body = [] := by
  have hclauses : (library g).theory.clausesOf s = _ :=
    Theory.clausesOf_insertAll .empty (declarations.facts g) s
  rw [hclauses, facts_declarations] at hc
  have hfact : c ∈ shapeFacts g := (List.mem_filter.mp hc).1
  obtain ⟨name, ids, _, _, rfl⟩ := Program.shapeFacts_flat hfact
  rfl

theorem containsName_of_offers (h : Offers s) (n : Nat) :
    (Compiler.standard n).vocabulary.containsName s.name := by
  have hnames : ∀ p ∈ declarations.vocabulary.entries,
      (Compiler.standard 0).vocabulary.containsName p.1.name := by
    decide +kernel
  obtain ⟨p, hp, hs⟩ := List.lookup_isSome_iff.mp h
  rw [Compiler.vocabulary_standard n 0, eq_of_beq hs]
  exact hnames p hp

end Standard

theorem Script.Compiled.not_offers {s : Script} {program : Program} (h : s.Compiled program)
    {c : Clause} (hc : c ∈ program.clauses) {p : Signature} (hp : c.signature? = some p) :
    ¬ Standard.Offers p := by
  intro hoffers
  rw [h.clauses] at hc
  obtain ⟨i, hi, hc⟩ := List.mem_flatMap.mp hc
  rcases h.signature_cases hi hc hp with ⟨d, hd, hname⟩ | ⟨q, rfl, rfl⟩
  · have hknown := Standard.containsName_of_offers hoffers 0
    rw [← hname, h.unknown hi hd] at hknown
    cases hknown
  · have hquery : (Standard.declarations.vocabulary.role? ⟨"query", 2⟩).isSome = false := by
      decide +kernel
    obtain rfl : ⟨"query", 2⟩ = p := Option.some.inj hp
    exact ne_true_of_eq_false hquery hoffers

def Engine.loadAll (e : Engine) (programs : List Program) :
    Engine := programs.foldl (fun e p => e.load p.clauses) e

theorem Engine.agreeOn_loadAll (e : Engine) {programs : List Program}
    (h : ∀ p ∈ programs, ∃ threshold source, (Compiler.standard threshold).compile source = .ok p) :
    AgreeOn Standard.Offers e (e.loadAll programs) := by
  induction programs generalizing e with
  | nil => exact ⟨rfl, rfl, fun _ _ => rfl⟩
  | cons p programs ih =>
    obtain ⟨⟨threshold, source, hcompile⟩, hrest⟩ := List.forall_mem_cons.mp h
    obtain ⟨script, hparse⟩ := Compiler.exists_parse_of_compile hcompile
    have hprogram := Script.compiled_of_compile hparse hcompile
    have hfirst : AgreeOn Standard.Offers e (e.load p.clauses) := by
      refine ⟨rfl, rfl, fun s hs => ?_⟩
      rw [clausesOf_load, List.filter_eq_nil_iff.mpr, List.append_nil]
      intro c hc hsig
      exact hprogram.not_offers hc (of_decide_eq_true hsig) hs
    exact hfirst.trans (ih _ hrest)

/-- Clauses for predicates that are not reachable from a goal change neither its answers nor whether
a branch is cut, wherever they are put among the others. So programs that passed the check can be
loaded without a change to the goals made from predicates of the library, as long as other clauses
loaded for these predicates call only such goals. -/
theorem unreachable_clauses_ignored :
    (∀ (e : Engine) (cs xs mixed : List Clause) (goal : Term), Interleaves cs xs mixed →
      (∀ x ∈ xs, ∀ s, x.signature? = some s → ¬ (e.load cs).Calls goal s) → ∀ budget n,
        Solutions.take (e.load mixed) budget n (.ofGoal goal) =
          Solutions.take (e.load cs) budget n (.ofGoal goal)) ∧
    ∀ (e : Engine) (g : Graph) (programs : List Program) (goal : Term),
      e.library = Standard.library g →
      (∀ s, Standard.Offers s → ∀ c ∈ e.database.clausesOf s, ∀ t ∈ c.body, Standard.IsGoal t) →
      (∀ p ∈ programs, ∃ threshold source, (Compiler.standard threshold).compile source = .ok p) →
      Standard.IsGoal goal → ∀ budget n,
        Solutions.take (e.loadAll programs) budget n (.ofGoal goal) =
          Solutions.take e budget n (.ofGoal goal) := by
  constructor
  · intro e cs xs mixed goal hmixed hxs budget n
    refine (Solutions.isReachable_ofGoal (e.load cs) goal).take_eq (e.agreeOn_load fun s hs => ?_) n
    refine hmixed.filter_eq _ fun x hx => ?_
    exact decide_eq_false fun hsig => hxs x hx s hsig hs
  · intro e g programs goal hlibrary hdatabase hprograms hgoal budget n
    have hoffers : ∀ s, e.Calls goal s → Standard.Offers s := by
      refine fun s hs => hs.of_closed (fun s hs c hc t ht => ?_) hgoal.callsOnly
      rw [Engine.clausesOf, hlibrary] at hc
      rcases List.mem_append.mp hc with hc | hc
      · rw [Standard.body_eq_nil hc] at ht
        cases ht
      · exact (hdatabase s hs c hc t ht).callsOnly
    exact (Solutions.isReachable_ofGoal e goal).take_eq
      ((e.agreeOn_loadAll hprograms).mono hoffers) n

theorem Search.callsOnly_of_call {S : Signature → Prop} {t : Term} {s : Signature}
    (ht : task t = .call s) (hs : S s) : CallsOnly S t := by
  intro u hu
  obtain rfl := hu.eq_of_parts (by rw [ht]; rfl)
  refine ⟨fun s' hs' => ?_, fun v hv => ?_⟩
  · cases ht.symm.trans hs'
    exact hs
  · rw [hv] at ht
    cases ht

def routeClauses : List Clause :=
  let x := Term.named "X"; let y := Term.named "Y"; let z := Term.named "Z"
  [⟨.compound "path" [x, y], [.compound "edge" [x, y]]⟩,
    ⟨.compound "path" [x, y], [.compound "edge" [x, z], .compound "path" [z, y]]⟩]

def loopClauses : List Clause :=
  let x := Term.named "X"
  [⟨.compound "loop" [x], [.compound "path" [x, x]]⟩,
    ⟨.atom "calm", [.compound "node" [x], .compound "not" [.compound "loop" [x]]]⟩]

def routeGoal : Term := .compound "path" [.atom "a", .named "X"]

def awayGoal : Term :=
  .compound "," [.compound "node" [.named "X"],
    .compound "not" [.compound "edge" [.named "X", .atom "c"]]]

theorem calls_routeGoal {g : Graph} {s : Signature}
    (h : (Engine.load { library := Standard.library g } routeClauses).Calls routeGoal s) :
    s ∈ [⟨"path", 2⟩, ⟨"edge", 2⟩] := by
  refine h.of_closed (S := (· ∈ [⟨"path", 2⟩, ⟨"edge", 2⟩])) (fun s _ c hc t ht =>
    ?_) (callsOnly_of_call rfl (by simp))
  rw [Engine.clausesOf_load, List.mem_append] at hc
  rcases hc with hc | hc
  · have hfact : c ∈ (Standard.library g).theory.clausesOf s := by
      simpa [Engine.clausesOf, Theory.clausesOf] using hc
    rw [Standard.body_eq_nil hfact] at ht
    cases ht
  · have hc := (List.mem_filter.mp hc).1
    simp only [routeClauses, List.mem_cons, List.not_mem_nil, or_false] at hc
    rcases hc with rfl | rfl
    · cases List.mem_singleton.mp ht
      exact callsOnly_of_call rfl (by simp)
    · rcases List.mem_pair.mp ht with rfl | rfl
      · exact callsOnly_of_call rfl (by simp)
      · exact callsOnly_of_call rfl (by simp)

theorem Standard.isGoal_of_call {t : Term} {s : Signature} (ht : task t = .call s)
    (hs : (declarations.vocabulary.role? s).isSome = true) : IsGoal t := by
  intro u hu
  obtain rfl := hu.eq_of_parts (by rw [ht]; rfl)
  refine ⟨?_, fun s' hs' => ?_⟩
  · cases u <;> first | rfl | cases ht
  · cases ht.symm.trans hs'
    exact hs

theorem isGoal_awayGoal : Standard.IsGoal awayGoal := by
  intro u hu
  cases hu with
  | self => exact ⟨rfl, nofun⟩
  | part ha hu =>
    rcases List.mem_pair.mp ha with rfl | rfl
    · exact Standard.isGoal_of_call (s := ⟨"node", 1⟩) rfl (by decide +kernel) u hu
    · cases hu with
      | self => exact ⟨rfl, nofun⟩
      | part ha hu =>
        cases List.mem_singleton.mp ha
        exact Standard.isGoal_of_call (s := ⟨"edge", 2⟩) rfl (by decide +kernel) u hu

theorem unreachable_clauses_ignored_paths :
    ∃ (e : Engine) (mixed : List Clause) (program : Program),
      Interleaves routeClauses loopClauses mixed ∧
      (Solutions.take (e.load routeClauses) 100 10 (.ofGoal routeGoal)).1.length = 2 ∧
      (Compiler.standard 16).compile busySource = .ok program ∧
      (Solutions.take e 100 10 (.ofGoal awayGoal)).1.length = 2 ∧ ∀ budget n,
      Solutions.take (e.load mixed) budget n (.ofGoal routeGoal) =
      Solutions.take (e.load routeClauses) budget n (.ofGoal routeGoal) ∧
      Solutions.take (e.loadAll [program, program]) budget n (.ofGoal awayGoal) =
      Solutions.take e budget n (.ofGoal awayGoal) := by
  let g : Graph :=
    { nodes := [⟨"a", []⟩, ⟨"b", []⟩, ⟨"c", []⟩],
      edges := [⟨"e", "a", "b", []⟩, ⟨"f", "b", "c", []⟩] }
  obtain ⟨program, hcompile, _⟩ := exists_ok_of_any (r := (Compiler.standard 16).compile busySource)
    (P := fun _ => true) (by decide +kernel)
  refine ⟨{ library := Standard.library g }, _, program,
    .right _ (.left _ (.right _ (.left _ .nil))), by decide +kernel, hcompile, by decide +kernel,
    fun budget n => ⟨?_, ?_⟩⟩
  · refine unreachable_clauses_ignored.1 _ routeClauses loopClauses _ routeGoal
      (.right _ (.left _ (.right _ (.left _ .nil)))) (fun x hx s hs hcalls => ?_) budget n
    have hpath := calls_routeGoal hcalls
    simp only [loopClauses, List.mem_cons, List.not_mem_nil, or_false] at hx
    rcases hx with rfl | rfl
    · cases hs
      revert hpath
      decide
    · cases hs
      revert hpath
      decide
  · refine unreachable_clauses_ignored.2 _ g [program, program] awayGoal rfl (fun _ _ _ hc =>
      (List.not_mem_nil hc).elim)
      (fun p hp => ⟨16, busySource, ?_⟩) isGoal_awayGoal budget n
    rcases List.mem_pair.mp hp with rfl | rfl <;> exact hcompile

def nodeGoal : Term := .compound "node" [.named "X"]

def ghostClause : Clause := ⟨nodeGoal, [.compound "ghost" [.named "X"]]⟩

/-- Where a clause for a predicate of the library calls one that it does not have, a program can add
answers. -/
theorem library_answers_change :
    ∃ (e : Engine) (g : Graph) (program : Program), e.library = Standard.library g ∧
      (Compiler.standard 16).compile "ghost(zed)." = .ok program ∧ Standard.IsGoal nodeGoal ∧
      (Solutions.take e 100 10 (.ofGoal nodeGoal)).1 = [⟨[("X", .atom "a")]⟩] ∧
      (Solutions.take (e.loadAll [program]) 100 10 (.ofGoal nodeGoal)).1 =
        [⟨[("X", .atom "a")]⟩, ⟨[("X", .atom "zed")]⟩] := by
  let g : Graph := { nodes := [⟨"a", []⟩] }
  let e : Engine := Engine.load { library := Standard.library g } [ghostClause]
  obtain ⟨program, hcompile, hanswers⟩ :=
    exists_ok_of_any (r := (Compiler.standard 16).compile "ghost(zed).")
    (P := fun p => (Solutions.take (e.loadAll [p]) 100 10 (.ofGoal nodeGoal)).1 =
      [⟨[("X", .atom "a")]⟩, ⟨[("X", .atom "zed")]⟩]) (by decide +kernel)
  exact ⟨e, g, program, rfl, hcompile,
    Standard.isGoal_of_call (s := ⟨"node", 1⟩) rfl (by decide +kernel),
    by decide +kernel, of_decide_eq_true hanswers⟩

end GraphRules
