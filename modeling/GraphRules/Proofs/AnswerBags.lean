import GraphRules.Proofs.Alternatives
import GraphRules.Proofs.Branches
import GraphRules.Proofs.Termination
import Mathlib.Data.Multiset.Bind

/-! The answers to a list of goals as a bag, in no order. Conjunctions and disjunctions that stand
first can be multiplied out: the bag of a goal is the sum of those of the lists it stands for. -/
namespace GraphRules.Reference

open Search

namespace Trace

variable {P : Nat → Bindings → Prop} {strict : Bool} {s : Trace Unit}

theorem answers_bind {f : Nat → Bindings → Trace Unit} (he : (s.bind f).ends) :
    (s.bind f).answers = s.answers.flatMap fun p => (f p.1 p.2).answers := by
  induction s with
  | done x => rfl
  | interrupted => cases he
  | step more ih => exact ih he
  | cut more ih => exact ih he
  | answer n b more ih =>
    rw [Trace.bind, ends_andThen, Bool.and_eq_true] at he
    rw [Trace.bind, answers_andThen he.1, ih he.2]
    rfl

theorem Each.ifFails_of {f : Unit → Trace Unit} {g : Nat → Unit} (hf : (f ()).Each strict P) :
    (s.ifFails f g).Each strict P := by
  induction s with
  | done x => exact hf
  | interrupted => trivial
  | step more ih => exact ih
  | cut more ih => exact .inr ih
  | answer n b more ih => trivial

end Trace

structure Halts (e : Engine) : Prop extends e.Functionless where
  ends : ∀ n b gs, Bindings.Tidy b → (∀ g ∈ gs, g.term.Tame) → ∃ k, (branches e k n b gs).ends

variable {e : Engine} {n k depth : Nat} {b : Bindings} {g : Goal} {gs hs rest : List Goal}
  {ts : List Term} {t x y : Term} {cs : List Clause} {tss : List (List Term)}

def atDepth (depth : Nat) (ts : List Term) : List Goal := ts.map (⟨·, depth⟩)

theorem atDepth_append (depth : Nat) (ts us : List Term) :
    atDepth depth (ts ++ us) = atDepth depth ts ++ atDepth depth us := List.map_append

theorem tame_atDepth (hts : ∀ t ∈ ts, t.Tame) : ∀ g ∈ atDepth depth ts, g.term.Tame := by
  intro g hg
  obtain ⟨t, ht, rfl⟩ := List.mem_map.mp hg
  exact hts t ht

theorem tame_atDepth_append (hts : ∀ t ∈ ts, t.Tame) (hrest : ∀ g ∈ rest, g.term.Tame) :
    ∀ g ∈ atDepth depth ts ++ rest, g.term.Tame := fun g hg =>
  (List.mem_append.mp hg).elim (tame_atDepth hts g) (hrest g)

open Classical in
/-- The answers to some goals, with the scope that each was reached in. There are none if the search
has no end. -/
noncomputable def bag (e : Engine) (n : Nat) (b : Bindings) (gs : List Goal) :
    Multiset (Nat × Bindings) :=
  if h : ∃ k, (branches e k n b gs).ends then (branches e h.choose n b gs).answers else 0

theorem bag_of_ends (h : (branches e k n b gs).ends) :
    bag e n b gs = (branches e k n b gs).answers := by
  have hex : ∃ k, (branches e k n b gs).ends := ⟨k, h⟩
  have heq : branches e hex.choose n b gs = branches e k n b gs := by
    rcases Nat.le_total k hex.choose with hle | hle
    · exact solve_of_ends h hle
    · exact (solve_of_ends hex.choose_spec hle).symm
  rw [bag, dif_pos hex, heq]

theorem exists_bag_eq_work (he : ∃ k, (branches e k n b (g :: rest)).ends) :
    ∃ k, (work .perBranch e (branches e k) n b g rest).ends ∧
      bag e n b (g :: rest) = (work .perBranch e (branches e k) n b g rest).answers := by
  obtain ⟨k, hk⟩ := he
  cases k with
  | zero => cases hk
  | succ k => exact ⟨k, hk, bag_of_ends hk⟩

theorem bag_done (he : ∃ k, (branches e k n b (g :: rest)).ends)
    (ht : task (b.walk g.term) = .done) : bag e n b (g :: rest) = bag e n b rest := by
  obtain ⟨k, hk, heq⟩ := exists_bag_eq_work he
  simp only [work, ht] at hk heq
  rw [heq, bag_of_ends hk]

theorem bag_failing (he : ∃ k, (branches e k n b (g :: rest)).ends)
    (ht : task (b.walk g.term) = .failing) : bag e n b (g :: rest) = 0 := by
  obtain ⟨k, hk, heq⟩ := exists_bag_eq_work he
  simp only [work, ht] at heq
  exact heq

theorem bag_both (he : ∃ k, (branches e k n b (g :: rest)).ends)
    (ht : task (b.walk g.term) = .both x y) :
    bag e n b (g :: rest) = bag e n b (⟨x, g.depth⟩ :: ⟨y, g.depth⟩ :: rest) := by
  obtain ⟨k, hk, heq⟩ := exists_bag_eq_work he
  simp only [work, ht] at hk heq
  rw [heq, bag_of_ends hk]

theorem bag_either (he : ∃ k, (branches e k n b (g :: rest)).ends)
    (ht : task (b.walk g.term) = .either x y) :
    bag e n b (g :: rest) =
      bag e n b (⟨x, g.depth⟩ :: rest) + bag e n b (⟨y, g.depth⟩ :: rest) := by
  obtain ⟨k, hk, heq⟩ := exists_bag_eq_work he
  simp only [work, ht] at hk heq
  rw [Trace.ends_andThen, Bool.and_eq_true] at hk
  have hright : (branches e k n b (⟨y, g.depth⟩ :: rest)).ends := hk.2
  rw [heq, Trace.answers_andThen hk.1, bag_of_ends hk.1, bag_of_ends hright]
  rfl

theorem answers_attempts {call : Term}
    (he : (attempts .perBranch (branches e k) b call depth rest cs n).ends) :
    ((attempts .perBranch (branches e k) b call depth rest cs n).answers : Multiset
      (Nat × Bindings)) = (cs.map fun c => (b.unify? call (c.rename (n + 1)).head).elim 0 fun b' =>
        bag e (n + 1) b' (atDepth (depth + 1) (c.rename (n + 1)).body ++ rest)).sum := by
  induction cs with
  | nil => rfl
  | cons c cs ih =>
    rw [attempts, Trace.ends_andThen, Bool.and_eq_true] at he
    have hrest : (attempts .perBranch (branches e k) b call depth rest cs n).ends := he.2
    rw [attempts, Trace.answers_andThen he.1, ← Multiset.coe_add, List.map_cons, List.sum_cons]
    refine congrArg₂ (· + ·) ?_ (ih hrest)
    have hfirst := he.1
    rw [attempt_plain Counting.plain_perBranch] at hfirst ⊢
    cases hu : b.unify? call (c.rename (n + 1)).head with
    | none => rfl
    | some b' =>
      rw [hu] at hfirst
      exact (bag_of_ends hfirst).symm

/-- A call of a predicate with clauses has the answers to the bodies of those whose heads match. -/
theorem bag_call {s : Signature} (he : ∃ k, (branches e k n b (g :: rest)).ends)
    (ht : task (b.walk g.term) = .call s) (hforeign : e.library.isForeign s = false)
    (hdepth : g.depth < e.limits.depth) :
    bag e n b (g :: rest) = ((e.clausesOf s).map fun c =>
      (b.unify? (b.walk g.term) (c.rename (n + 1)).head).elim 0 fun b' =>
        bag e (n + 1) b' (atDepth (g.depth + 1) (c.rename (n + 1)).body ++ rest)).sum := by
  obtain ⟨k, hk, heq⟩ := exists_bag_eq_work he
  simp only [work, ht, called, hforeign, Bool.false_eq_true, if_false,
    Nat.not_le_of_lt hdepth] at hk heq
  rw [heq, answers_attempts hk]

theorem bag_append (he : ∃ k, (branches e k n b (gs ++ hs)).ends) :
    bag e n b (gs ++ hs) = (bag e n b gs).bind fun p => bag e p.1 p.2 hs := by
  obtain ⟨k, hk⟩ := he
  have heq := branches_append hk
  rw [bag_of_ends hk]
  rw [heq] at hk ⊢
  obtain ⟨hgs, hhs⟩ := Trace.ends_bind hk
  rw [Trace.answers_bind hk, bag_of_ends hgs, ← Multiset.coe_bind]
  exact Multiset.bind_congr fun p hp => (bag_of_ends (hhs p hp).1).symm

theorem tidy_attempts {next : Next Unit} (hb : b.Tidy) {p : String} {args : List Term}
    (hflat : args.all Term.isFlat)
    (hheads : ∀ c ∈ cs, ∃ p args, c.head = .apply p args ∧ args.all Term.isFlat)
    (hnext : ∀ n (c : Clause), c ∈ cs → ∀ b' : Bindings, b'.Tidy →
      (next n b' ((c.rename n).body.map (⟨·, depth + 1⟩) ++ rest)).Each false fun _ b' =>
      b'.Tidy) (n : Nat) :
    (attempts .perBranch next b (.apply p args) depth rest cs n).Each false fun _ b' =>
      b'.Tidy := by
  induction cs with
  | nil => trivial
  | cons c cs ih =>
    refine Trace.Each.andThen ?_ (ih (fun c' hc' => hheads c' (by simp [hc'])) fun n c' hc' =>
      hnext n c' (by simp [hc']))
    obtain ⟨q, hs, hhead, hhflat⟩ := hheads c (by simp)
    have hhflat' := (Term.all_isFlat_renameList (n + 1) hs).trans hhflat
    have hrename : (c.rename (n + 1)).head = .apply q (Term.renameList (n + 1) hs) := by
      rw [Clause.rename, hhead, Term.apply_rename]
    rw [attempt_plain Counting.plain_perBranch, hrename, Bindings.unify?_apply hb p q hflat hhflat']
    split
    · trivial
    · next b' hu =>
      split_ifs at hu
      exact hnext (n + 1) c (by simp) b' (hb.unifyAll hflat hhflat' hu).1

theorem tidy_branches (hprog : e.Functionless) (hb : b.Tidy) (hgs : ∀ g ∈ gs, g.term.Tame) :
    (branches e k n b gs).Each false fun _ b' => b'.Tidy := by
  induction k generalizing n b gs with
  | zero => trivial
  | succ k ih =>
    cases gs with
    | nil => exact ⟨hb, trivial⟩
    | cons g rest =>
      have hrest : ∀ g ∈ rest, g.term.Tame := fun g hg => hgs g (by simp [hg])
      have htask := ((hgs g (by simp)).walk hb).task
      have hcons : ∀ {t : Term} {gs : List Goal}, t.Tame → (∀ g ∈ gs, g.term.Tame) →
          ∀ g' ∈ ⟨t, g.depth⟩ :: gs, g'.term.Tame :=
            fun ht hgs => List.forall_mem_cons.mpr ⟨ht, hgs⟩
      show (work .perBranch e (branches e k) n b g rest).Each false _
      unfold work
      cases ht : task (b.walk g.term) with
      | done => exact ih hb hrest
      | failing => trivial
      | both x y =>
        rw [ht] at htask
        exact ih hb (hcons htask.1 (hcons htask.2 hrest))
      | either x y =>
        rw [ht] at htask
        exact (ih hb (hcons htask.1 hrest)).andThen (ih hb (hcons htask.2 hrest))
      | negation x => exact Trace.Each.ifFails_of (ih hb hrest)
      | comparison op x y =>
        dsimp only
        split
        · exact ih hb hrest
        · trivial
      | call s =>
        rw [ht] at htask
        obtain ⟨p, args, hw, hflat⟩ := htask
        rw [hw]
        dsimp only [called]
        split
        · split
          · trivial
          · next b' hf =>
            obtain ⟨es, hc, hq⟩ := Option.bind_eq_some_iff.mp hf
            exact ih (tidy_equate hb (hprog.foreign.flat_of_call hc) hq).1 hrest
        · split
          · exact .inr trivial
          · refine tidy_attempts hb hflat (hprog.heads s) (fun m c hc b' hb' => ih hb' ?_) n
            exact tame_atDepth_append (fun t => Clause.tame_rename (hprog.bodies s c hc) m) hrest

theorem tidy_of_mem_bag (hprog : e.Functionless) (hb : b.Tidy) (hgs : ∀ g ∈ gs, g.term.Tame)
    {p : Nat × Bindings} (hp : p ∈ bag e n b gs) : p.2.Tidy := by
  unfold bag at hp
  split at hp
  · exact (tidy_branches hprog hb hgs).of_mem (.inl rfl) hp
  · cases hp

theorem bind_sum {α β γ : Type} (s : Multiset α) (l : List β) (f : α → β → Multiset γ) :
    (s.bind fun a => (l.map (f a)).sum) = (l.map fun y => s.bind fun a => f a y).sum := by
  induction l with
  | nil => simp
  | cons y l ih => simp [Multiset.bind_add, ih]

theorem sum_products (as bs : List (List Term)) (f : List Term → Multiset (Nat × Bindings)) :
    ((Term.products as bs).map f).sum = (as.map fun x => (bs.map fun y => f (x ++ y)).sum).sum := by
  induction as with
  | nil => rfl
  | cons x as ih =>
    rw [Term.products, List.flatMap_cons, ← Term.products, List.map_append,
      List.sum_append, ih, List.map_map]
    rfl

theorem tame_of_splits (h : t.Splits tss) (ht : t.Tame) : ∀ ts ∈ tss, ∀ u ∈ ts, u.Tame := by
  induction h with
  | leaf t => simpa using ht
  | done => simp
  | failing => simp
  | both _ _ iha ihb =>
    have htask : _ ∧ _ := ht.task
    intro ts hts
    obtain ⟨x, hx, hts⟩ := List.mem_flatMap.mp hts
    obtain ⟨y, hy, rfl⟩ := List.mem_map.mp hts
    intro u hu
    rcases List.mem_append.mp hu with hu | hu
    · exact iha htask.1 x hx u hu
    · exact ihb htask.2 y hy u hu
  | either _ _ iha ihb =>
    have htask : _ ∧ _ := ht.task
    intro ts hts
    rcases List.mem_append.mp hts with hts | hts
    · exact iha htask.1 ts hts
    · exact ihb htask.2 ts hts

/-- A goal that stands first can be multiplied out. -/
theorem bag_splits (hprog : Halts e) (h : t.Splits tss) (ht : t.Tame) (depth : Nat) (hb : b.Tidy)
    (hrest : ∀ g ∈ rest, g.term.Tame) :
    bag e n b (⟨t, depth⟩ :: rest) =
      (tss.map fun ts => bag e n b (atDepth depth ts ++ rest)).sum := by
  -- everything that is searched for here comes to an end
  have hends : ∀ (n : Nat) {b : Bindings} {rest : List Goal} (ts : List Term), b.Tidy →
      (∀ t ∈ ts, t.Tame) →
      (∀ g ∈ rest, g.term.Tame) → ∃ k, (branches e k n b (atDepth depth ts ++ rest)).ends :=
    fun _ _ _ _ hb hts hrest => hprog.ends _ _ _ hb (tame_atDepth_append hts hrest)
  have htask : ∀ (b : Bindings) (f : String) (as : List Term),
      task (b.walk (.compound f as)) = task (.compound f as) :=
    fun b f as => by rw [b.walk_nonvar (by simp)]
  induction h generalizing n b rest with
  | leaf t => simp [atDepth]
  | done =>
    have he := hends n [.atom "true"] hb (by simpa using ht) hrest
    have hdone : task (b.walk (.atom "true")) = .done := by rw [b.walk_nonvar (by simp)]; rfl
    simpa [atDepth] using bag_done he hdone
  | failing =>
    have he := hends n [.atom "fail"] hb (by simpa using ht) hrest
    have hfail : task (b.walk (.atom "fail")) = .failing := by rw [b.walk_nonvar (by simp)]; rfl
    exact bag_failing he hfail
  | @both a c as cs ha hc' iha ihc =>
    obtain ⟨hta, htc⟩ : a.Tame ∧ c.Tame := ht.task
    have he := hends n [.compound "," [a, c]] hb (by simpa using ht) hrest
    have hc : ∀ g ∈ ⟨c, depth⟩ :: rest, g.term.Tame := List.forall_mem_cons.mpr ⟨htc, hrest⟩
    have hpart : ∀ x ∈ as, bag e n b (atDepth depth x ++ ⟨c, depth⟩ :: rest) =
        (cs.map fun y => bag e n b (atDepth depth (x ++ y) ++ rest)).sum := by
      intro x hx
      have htx := tame_of_splits ha hta x hx
      have htxy : ∀ y ∈ cs, ∀ u ∈ x ++ y, u.Tame := fun y hy u hu =>
        (List.mem_append.mp hu).elim (htx u) (tame_of_splits hc' htc y hy u)
      have hsplit : ∀ p ∈ bag e n b (atDepth depth x), bag e p.1 p.2 (⟨c, depth⟩ :: rest) =
          (cs.map fun y => bag e p.1 p.2 (atDepth depth y ++ rest)).sum := by
        intro p hp
        exact ihc htc (tidy_of_mem_bag hprog.toFunctionless hb (tame_atDepth htx) hp) hrest
      have hjoin : ∀ y ∈ cs,
          (bag e n b (atDepth depth x)).bind (fun p => bag e p.1 p.2 (atDepth depth y ++ rest)) =
          bag e n b (atDepth depth (x ++ y) ++ rest) := by
        intro y hy
        have hxy := hends n (x ++ y) hb (htxy y hy) hrest
        rw [atDepth_append, List.append_assoc] at hxy ⊢
        exact (bag_append hxy).symm
      rw [bag_append (hends n x hb htx hc), Multiset.bind_congr hsplit, bind_sum]
      exact congrArg List.sum (List.map_congr_left hjoin)
    calc bag e n b (⟨.compound "," [a, c], depth⟩ :: rest)
        = bag e n b (⟨a, depth⟩ :: ⟨c, depth⟩ :: rest) := bag_both he (htask b "," [a, c])
      _ = (as.map fun x => bag e n b (atDepth depth x ++ ⟨c, depth⟩ :: rest)).sum := iha hta hb hc
      _ = (as.map fun x => (cs.map fun y => bag e n b (atDepth depth (x ++ y) ++ rest)).sum).sum :=
        congrArg List.sum (List.map_congr_left hpart)
      _ = ((Term.products as cs).map fun ts => bag e n b (atDepth depth ts ++ rest)).sum :=
        (sum_products as cs fun ts => bag e n b (atDepth depth ts ++ rest)).symm
  | @either a c as cs _ _ iha ihc =>
    obtain ⟨hta, htc⟩ : a.Tame ∧ c.Tame := ht.task
    have he := hends n [.compound ";" [a, c]] hb (by simpa using ht) hrest
    rw [List.map_append, List.sum_append, ← iha hta hb hrest, ← ihc htc hb hrest]
    exact bag_either he (htask b ";" [a, c])

end GraphRules.Reference
