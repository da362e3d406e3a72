import GraphRules.Proofs.Walk
import Mathlib.Data.List.Infix

/-! Marks and unification. Unification only ever adds to the trail, so going back to a mark leaves
just the bindings that were there when the mark was taken, and a call that fails changes nothing.
What a call comes to is then an option: the bindings it has made, if there are any. -/
namespace GraphRules.Bindings

variable {b c : Bindings} {s t : Term} {m : Nat} {step : Bindings → Term → Term → Bool × Bindings}
  {ss ts : List Term}

theorem trail_pop (b : Bindings) : b.pop.trail = b.trail.tail := by
  unfold pop
  split
  · next h => simp [h]
  · next h => simp [h]

theorem trail_undoTo (b : Bindings) (m : Nat) : (b.undoTo m).trail = b.trail.drop (b.mark - m) := by
  unfold undoTo
  induction b.mark - m with
  | zero => rfl
  | succ n ih => rw [Nat.repeat, trail_pop, ih, List.tail_drop]

theorem suffix_undoTo_self (b : Bindings) (m : Nat) : (b.undoTo m).trail <:+ b.trail := by
  rw [trail_undoTo]
  exact List.drop_suffix _ _

@[simp] theorem undoTo_mark (b : Bindings) : b.undoTo b.mark = b := by
  ext1
  rw [trail_undoTo, Nat.sub_self, List.drop_zero]

theorem mark_undoTo (h : m ≤ b.mark) : (b.undoTo m).mark = m := by
  rw [mark, trail_undoTo, List.length_drop]
  exact Nat.sub_sub_self h

/-- Going back to where the trail had a given end leaves just that end. -/
theorem undoTo_of_suffix (h : b.trail <:+ c.trail) : c.undoTo b.mark = b := by
  ext1
  rw [trail_undoTo]
  exact (List.suffix_iff_eq_drop.mp h).symm

/-- Going back no further than a mark keeps what was bound when the mark was taken. -/
theorem suffix_undoTo (h : b.trail <:+ c.trail) (hm : b.mark ≤ m) :
    b.trail <:+ (c.undoTo m).trail := by
  rw [trail_undoTo]
  refine List.suffix_of_suffix_length_le h (List.drop_suffix _ _) ?_
  have hlen := h.length_le
  simp only [mark] at hm
  rw [List.length_drop, mark]
  omega

/-- Further bindings do not matter to an older mark. -/
theorem undoTo_congr (h : b.trail <:+ c.trail) (hm : m ≤ b.mark) : c.undoTo m = b.undoTo m := by
  have hback := undoTo_of_suffix ((suffix_undoTo_self b m).trans h)
  rwa [mark_undoTo hm] at hback

/-! ### Unification adds to the trail -/

theorem suffix_bind (b : Bindings) (v : Var) (t : Term) : b.trail <:+ (b.bind v t).trail := by
  by_cases hv : b.find? v = none
  · rw [trail_bind hv]
    exact List.suffix_cons _ _
  · rw [bind, dif_neg hv]

theorem suffix_unifyEach (hstep : ∀ b s t, b.trail <:+ (step b s t).2.trail) (b : Bindings)
    (ss ts : List Term) : b.trail <:+ (unifyEach step b ss ts).2.trail := by
  induction ss generalizing b ts with
  | nil => exact List.suffix_rfl
  | cons s ss ih =>
    cases ts with
    | nil => exact List.suffix_rfl
    | cons t ts =>
      have hfirst := hstep b s t
      simp only [unifyEach]
      cases hr : step b s t with
      | mk ok c =>
        rw [hr] at hfirst
        cases ok with
        | true => exact hfirst.trans (ih c ts)
        | false => exact hfirst

theorem suffix_unifyInner (n : Nat) (b : Bindings) (s t : Term) :
    b.trail <:+ (unifyInner n b s t).2.trail := by
  induction n generalizing b s t with
  | zero => exact List.suffix_rfl
  | succ n ih =>
    simp only [unifyInner]
    split_ifs
    · exact List.suffix_rfl
    · split
      · exact suffix_bind _ _ _
      · exact suffix_bind _ _ _
      · split_ifs
        · exact suffix_unifyEach ih _ _ _
        · exact List.suffix_rfl
      · exact List.suffix_rfl

/-! ### Calls as options -/

def made? : Bool × Bindings → Option Bindings
  | (true, b) => some b
  | (false, _) => none

def unify? (b : Bindings) (s t : Term) : Option Bindings := made? (b.unify s t)

def unifyDepth (n : Nat) (b : Bindings) (s t : Term) : Option Bindings := made? (unifyInner n b s t)

def unifyAll (step : Bindings → Term → Term → Option Bindings) :
    Bindings → List Term → List Term → Option Bindings
  | b, s :: ss, t :: ts =>
    match step b s t with
    | some b' => unifyAll step b' ss ts
    | none => none
  | b, [], [] => some b
  | _, _, _ => none

theorem unifyAll_of_length_ne {step : Bindings → Term → Term → Option Bindings}
    (hlen : ss.length ≠ ts.length) : unifyAll step b ss ts = none := by
  induction ss generalizing b ts with
  | nil =>
    cases ts with
    | nil => exact (hlen rfl).elim
    | cons t ts => rfl
  | cons s ss ih =>
    cases ts with
    | nil => rfl
    | cons t ts =>
      simp only [unifyAll]
      cases step b s t with
      | none => rfl
      | some b' => exact ih fun e => hlen (congrArg (· + 1) e)

theorem made?_unifyEach (hlen : ss.length = ts.length) :
    made? (unifyEach step b ss ts) = unifyAll (fun b s t => made? (step b s t)) b ss ts := by
  induction ss generalizing b ts with
  | nil =>
    obtain rfl := List.length_eq_zero_iff.mp hlen.symm
    rfl
  | cons s ss ih =>
    cases ts with
    | nil => cases hlen
    | cons t ts =>
      simp only [unifyEach, unifyAll]
      cases step b s t with
      | mk ok c =>
        cases ok with
        | true => exact ih (Nat.succ.inj hlen)
        | false => rfl

theorem unifyDepth_succ (n : Nat) (b : Bindings) (s t : Term) :
    unifyDepth (n + 1) b s t =
      if b.walk s = b.walk t then some b
      else
        match b.walk s, b.walk t with
        | .var v, t => some (b.bind v t)
        | s, .var v => some (b.bind v s)
        | .compound f ss, .compound g ts => if f = g then unifyAll (unifyDepth n) b ss ts else none
        | _, _ => none := by
  simp only [unifyDepth, unifyInner]
  generalize b.walk s = u
  generalize b.walk t = w
  by_cases heq : u = w
  · rw [if_pos heq, if_pos heq]
    rfl
  · rw [if_neg heq, if_neg heq]
    cases u with
    | var v => rfl
    | atom a => cases w <;> rfl
    | number x => cases w <;> rfl
    | compound f ss =>
      cases w with
      | var v => rfl
      | atom a => rfl
      | number x => rfl
      | compound g ts =>
        dsimp only
        by_cases hfg : f = g
        · by_cases hlen : ss.length = ts.length
          · rw [if_pos ⟨hfg, hlen⟩, if_pos hfg, made?_unifyEach hlen]
            rfl
          · rw [if_neg fun h => hlen h.2, if_pos hfg, unifyAll_of_length_ne hlen]
            rfl
        · rw [if_neg fun h => hfg h.1, if_neg hfg]
          rfl

theorem unify?_eq (b : Bindings) (s t : Term) :
    b.unify? s t = unifyDepth (b.weight + s.size + t.size) b s t := by
  rw [unify?, unifyDepth, unify]
  cases unifyInner (b.weight + s.size + t.size) b s t with
  | mk ok c => cases ok <;> rfl

/-- Unification that fails changes nothing. -/
theorem unify_eq (b : Bindings) (s t : Term) :
    b.unify s t =
      match b.unify? s t with
      | some c => (true, c)
      | none => (false, b) := by
  have hsuffix := suffix_unifyInner (b.weight + s.size + t.size) b s t
  rw [unify?, unify]
  cases hr : unifyInner (b.weight + s.size + t.size) b s t with
  | mk ok c =>
    cases ok with
    | true => rfl
    | false =>
      rw [hr] at hsuffix
      exact congrArg _ (undoTo_of_suffix hsuffix)

theorem suffix_of_unify? (h : b.unify? s t = some c) : b.trail <:+ c.trail := by
  have hsuffix := suffix_unifyInner (b.weight + s.size + t.size) b s t
  rw [unify?_eq, unifyDepth] at h
  cases hr : unifyInner (b.weight + s.size + t.size) b s t with
  | mk ok d =>
    rw [hr] at h hsuffix
    cases ok with
    | true => cases h; exact hsuffix
    | false => cases h

end GraphRules.Bindings
