import GraphRules.Proofs.Variants
import Mathlib.Algebra.GroupWithZero.Nat
import Mathlib.Tactic.SplitIfs

/-! Searches come to an end. A clause takes a call to goals that are nested deeper, and all else
takes a goal to smaller ones, so a weight that counts goals by their sizes and by the nesting still
allowed goes down with every step. -/
namespace GraphRules

mutual

theorem Term.size_rename (m : Nat) : ∀ t : Term, (t.rename m).size = t.size
  | .atom _ => rfl
  | .number _ => rfl
  | .var _ => rfl
  | .compound _ as => congrArg (1 + ·) (Term.sizes_renameList m as)

theorem Term.sizes_renameList (m : Nat) :
    ∀ ts : List Term, Term.sizes (Term.renameList m ts) = Term.sizes ts
  | [] => rfl
  | t :: ts => congrArg₂ (· + ·) (Term.size_rename m t) (Term.sizes_renameList m ts)

end

theorem Bindings.Tidy.size_walk {b : Bindings} (h : b.Tidy) (t : Term) :
    (b.walk t).size = t.size := by
  by_cases hv : ∃ v, t = .var v
  · obtain ⟨v, rfl⟩ := hv
    have hflat : (b.walk (.var v)).isFlat := h.walk rfl
    cases hw : b.walk (.var v) with
    | compound f as => rw [hw] at hflat; cases hflat
    | atom a => rfl
    | number x => rfl
    | var w => rfl
  · rw [Bindings.walk_nonvar b fun v e => hv ⟨v, e⟩]

namespace Reference

open Search

variable {ε : Type} {κ : Counting ε} {e : Engine} {next : Next ε} {B depth : Nat} {b : Bindings}

def weight (B d : Nat) (gs : List Goal) : Nat :=
  (gs.map fun g => g.term.size * (B + 1) ^ (d - g.depth)).sum

theorem weight_cons (B d : Nat) (g : Goal) (gs : List Goal) :
    weight B d (g :: gs) = g.term.size * (B + 1) ^ (d - g.depth) + weight B d gs := List.sum_cons

theorem weight_append (B d : Nat) (gs hs : List Goal) :
    weight B d (gs ++ hs) = weight B d gs + weight B d hs := by
  simp [weight]

theorem weight_goals (B d depth : Nat) (ts : List Term) :
    weight B d (ts.map (⟨·, depth⟩)) = Term.sizes ts * (B + 1) ^ (d - depth) := by
  induction ts with
  | nil => simp [weight, Term.sizes]
  | cons t ts ih => rw [List.map_cons, weight_cons, ih, Term.sizes, Nat.add_mul]

theorem weight_lt (B d depth : Nat) {t : Term} (ts : List Term) (h : Term.sizes ts < t.size)
    (rest : List Goal) :
    weight B d (ts.map (⟨·, depth⟩) ++ rest) < weight B d (⟨t, depth⟩ :: rest) := by
  rw [weight_append, weight_goals, weight_cons]
  have := Nat.mul_lt_mul_of_pos_right h (Nat.pow_pos (n := d - depth) (Nat.succ_pos B))
  exact Nat.add_lt_add_right this _

/-- The body of a clause weighs less than the call, unless the clauses are nested too deep. -/
theorem weight_body_lt {d : Nat} (hd : depth < d) {c : Clause}
    (hc : Term.sizes c.body ≤ B) (m : Nat) (t : Term) (rest : List Goal) :
    weight B d ((c.rename m).body.map (⟨·, depth + 1⟩) ++ rest) <
      weight B d (⟨t, depth⟩ :: rest) := by
  obtain ⟨r, hr⟩ : ∃ r, d - depth = r + 1 := ⟨d - depth - 1, by omega⟩
  have hr' : d - (depth + 1) = r := by omega
  rw [weight_append, weight_goals, weight_cons, Clause.rename, Term.sizes_renameList, hr, hr']
  refine Nat.add_lt_add_right ?_ _
  calc Term.sizes c.body * (B + 1) ^ r ≤ B * (B + 1) ^ r := Nat.mul_le_mul_right _ hc
    _ < (B + 1) * (B + 1) ^ r :=
      Nat.mul_lt_mul_of_pos_right (Nat.lt_succ_self B) (Nat.pow_pos (Nat.succ_pos B))
    _ = 1 * (B + 1) ^ (r + 1) := by rw [Nat.pow_succ, Nat.one_mul, Nat.mul_comm]
    _ ≤ t.size * (B + 1) ^ (r + 1) := Nat.mul_le_mul_right _ t.size_pos

theorem attempts_ends (hb : b.Tidy) {p : String} {args : List Term} (hflat : args.all Term.isFlat)
    {rest : List Goal} {cs : List Clause}
    (hheads : ∀ c ∈ cs, ∃ p args, c.head = .apply p args ∧ args.all Term.isFlat)
    (hnext : ∀ n m (c : Clause), c ∈ cs → ∀ b' : Bindings, b'.Tidy →
      (next n b' ((c.rename m).body.map (⟨·, depth + 1⟩) ++ rest)).ends) (n : Nat) :
    (attempts κ next b (.apply p args) depth rest cs n).ends := by
  induction cs generalizing n with
  | nil => rfl
  | cons c cs ih =>
    refine Trace.ends_andThen_of ?_ fun x => ih (fun c' hc' => hheads c' (by simp [hc']))
      (fun n m c' hc' => hnext n m c' (by simp [hc'])) _
    obtain ⟨q, hs, hhead, hhflat⟩ := hheads c (by simp)
    unfold attempt
    generalize κ.copy (n + 1) b (.apply p args) rest = m
    have hhflat' := (Term.all_isFlat_renameList m hs).trans hhflat
    have hunify : b.unify? (.apply p args) (c.rename m).head = _ :=
      (congrArg _ (by rw [Clause.rename, hhead, Term.apply_rename])).trans
        (Bindings.unify?_apply hb p q hflat hhflat')
    cases hu : b.unify? (.apply p args) (c.rename m).head with
    | none => rfl
    | some b' =>
      rw [hunify] at hu
      split at hu
      · exact hnext (n + 1) m c (by simp) b' (hb.unifyAll hflat hhflat' hu).1
      · cases hu

/-- A search comes to its end when it is allowed a depth of recursion past the weight of its goals.
-/
theorem solve_ends (hprog : e.Functionless) (hB : ∀ s, ∀ c ∈ e.clausesOf s, Term.sizes c.body ≤ B)
    {k : Nat} {n : Nat} (hb : b.Tidy) {gs : List Goal} (hgs : ∀ g ∈ gs, g.term.Tame)
    (hk : weight B e.limits.depth gs < k) : (solve κ e k n b gs).ends := by
  induction k generalizing n b gs with
  | zero => cases hk
  | succ k ih =>
    cases gs with
    | nil => rfl
    | cons g rest =>
      obtain ⟨t, depth⟩ := g
      have hgoal := (hgs ⟨t, depth⟩ (by simp)).walk hb
      have htask := hgoal.task
      have hsize := hb.size_walk t
      have hrest : ∀ g ∈ rest, g.term.Tame := fun g hg => hgs g (by simp [hg])
      -- goals in place of the first one that are smaller
      have hgo : ∀ ts : List Term, (∀ t ∈ ts, t.Tame) → Term.sizes ts < (b.walk t).size → ∀ n,
          (solve κ e k n b (ts.map (⟨·, depth⟩) ++ rest)).ends := by
        intro ts hts hlt n
        refine ih hb (fun g hg =>
          ?_) (Nat.lt_of_lt_of_le (weight_lt B _ depth ts (hsize ▸ hlt) rest)
            (Nat.le_of_lt_succ hk))
        rcases List.mem_append.mp hg with hg | hg
        · obtain ⟨t', ht', rfl⟩ := List.mem_map.mp hg
          exact hts t' ht'
        · exact hrest g hg
      have hskip : ∀ n (b' : Bindings), b'.Tidy → (solve κ e k n b' rest).ends := fun n b' hb' =>
        ih hb' hrest (Nat.lt_of_lt_of_le (weight_lt B _ depth [] t.size_pos rest)
          (Nat.le_of_lt_succ hk))
      show (work κ e (solve κ e k) n b ⟨t, depth⟩ rest).ends
      unfold work
      dsimp only
      cases ht : task (b.walk t) with
      | done => exact hskip n b hb
      | failing => rfl
      | both x y =>
        rw [ht] at htask
        refine hgo [x, y] (by simpa [Task.Tame] using htask) ?_ n
        rw [eq_of_task_both ht]
        simp [Term.sizes, Term.size]
      | either x y =>
        rw [ht] at htask
        have hx := hgo [x] (by simpa using htask.1) (by
          rw [eq_of_task_either ht]; have := y.size_pos; simp only [Term.sizes, Term.size]; omega)
        have hy := hgo [y] (by simpa using htask.2) (by
          rw [eq_of_task_either ht]; have := x.size_pos; simp only [Term.sizes, Term.size]; omega)
        exact Trace.ends_andThen_of (hx n) fun z => hy _
      | negation x =>
        rw [ht] at htask
        refine Trace.ends_ifFails_of ?_ fun z => hskip _ b hb
        refine ih hb (by simpa [Task.Tame] using htask)
          (Nat.lt_of_lt_of_le ?_ (Nat.le_of_lt_succ hk))
        have hlt : Term.sizes [x] < t.size := by
          rw [← hsize, eq_of_task_negation ht]
          simp [Term.sizes, Term.size]
        have := weight_lt B e.limits.depth depth [x] hlt rest
        rw [weight_append] at this
        exact Nat.lt_of_le_of_lt (Nat.le_add_right _ _) this
      | comparison op x y =>
        dsimp only
        split
        · exact hskip n b hb
        · rfl
      | call s =>
        rw [ht] at htask
        obtain ⟨p, args, hw, hflat⟩ := htask
        rw [hw]
        dsimp only [called]
        split
        · unfold foreign?
          cases hc : e.library.call s ((Term.apply p args).args.map b.resolve) with
          | none => rfl
          | some es =>
            cases hq : equate? b es with
            | none => simp only [Option.bind_some, hq]; rfl
            | some b' =>
              simp only [Option.bind_some, hq]
              exact hskip n b' (tidy_equate hb (hprog.foreign.flat_of_call hc) hq).1
        · split
          · rfl
          · next hdepth =>
            refine attempts_ends hb hflat (hprog.heads s) (fun n m c hc b' hb' => ?_) n
            refine ih hb' (fun g hg => ?_)
              (Nat.lt_of_lt_of_le (weight_body_lt (Nat.lt_of_not_le hdepth) (hB s c hc) m t rest)
                (Nat.le_of_lt_succ hk))
            rcases List.mem_append.mp hg with hg | hg
            · obtain ⟨t', ht', rfl⟩ := List.mem_map.mp hg
              exact Clause.tame_rename (hprog.bodies s c hc) m ht'
            · exact hrest g hg

end Reference

end GraphRules
