import GraphRules.Term.Bindings
import Mathlib.Data.List.Basic

/-! Traces of a search: what it comes upon, in its order, with something kept from where it is over.
A trace that was interrupted says nothing about what would have come next. -/
namespace GraphRules.Reference

inductive Trace (ε : Type) where
  /-- The search is over. -/
  | done (x : ε)
  /-- The search was given up. -/
  | interrupted
  /-- One goal is worked on. -/
  | step (more : Trace ε)
  /-- A branch is cut because clauses are nested too deep. -/
  | cut (more : Trace ε)
  /-- The goals are solved by a substitution; how many clauses were tried is kept with it. -/
  | answer (tries : Nat) (b : Bindings) (more : Trace ε)

namespace Trace

variable {ε δ ζ : Type} {f f' : ε → Trace δ} {s' : Trace ε} {m : Nat}

def andThen : Trace ε → (ε → Trace δ) → Trace δ
  | .done x, f => f x
  | .interrupted, _ => .interrupted
  | .step more, f => .step (more.andThen f)
  | .cut more, f => .cut (more.andThen f)
  | .answer n b more, f => .answer n b (more.andThen f)

/-- Goes on with another search if this one has no answer. The first answer ends both. -/
def ifFails : Trace ε → (ε → Trace δ) → (Nat → δ) → Trace δ
  | .done x, f, _ => f x
  | .interrupted, _, _ => .interrupted
  | .step more, f, g => .step (more.ifFails f g)
  | .cut more, f, g => .cut (more.ifFails f g)
  | .answer n _ _, _, g => .done (g n)

def answers : Trace ε → List (Nat × Bindings)
  | .done _ => []
  | .interrupted => []
  | .step more => more.answers
  | .cut more => more.answers
  | .answer n b more => (n, b) :: more.answers

def ends : Trace ε → Bool
  | .done _ => true
  | .interrupted => false
  | .step more => more.ends
  | .cut more => more.ends
  | .answer _ _ more => more.ends

def last? : Trace ε → Option ε
  | .done x => some x
  | .interrupted => none
  | .step more => more.last?
  | .cut more => more.last?
  | .answer _ _ more => more.last?

def isCut : Trace ε → Bool
  | .done _ => false
  | .interrupted => false
  | .step more => more.isCut
  | .cut _ => true
  | .answer _ _ more => more.isCut

def steps : Trace ε → Nat
  | .done _ => 0
  | .interrupted => 0
  | .step more => more.steps + 1
  | .cut more => more.steps
  | .answer _ _ more => more.steps

theorem isSome_last? (t : Trace ε) : t.last?.isSome = t.ends := by
  induction t with
  | done x => rfl
  | interrupted => rfl
  | step more ih => exact ih
  | cut more ih => exact ih
  | answer n b more ih => exact ih

theorem ends_of_last? {t : Trace ε} {x : ε} (h : t.last? = some x) :
    t.ends := by rw [← isSome_last?, h]; rfl

theorem andThen_assoc (s : Trace ε) (f : ε → Trace δ) (g : δ → Trace ζ) :
    (s.andThen f).andThen g = s.andThen fun x => (f x).andThen g := by
  induction s with
  | done x => rfl
  | interrupted => rfl
  | step more ih => simp only [andThen, ih]
  | cut more ih => simp only [andThen, ih]
  | answer n b more ih => simp only [andThen, ih]

theorem andThen_done (s : Trace ε) : s.andThen .done = s := by
  induction s with
  | done x => rfl
  | interrupted => rfl
  | step more ih => simp only [andThen, ih]
  | cut more ih => simp only [andThen, ih]
  | answer n b more ih => simp only [andThen, ih]

theorem ends_andThen_of {s : Trace ε} (hs : s.ends) (hf : ∀ x, (f x).ends) :
    (s.andThen f).ends := by
  induction s with
  | done x => exact hf x
  | interrupted => cases hs
  | step more ih => exact ih hs
  | cut more ih => exact ih hs
  | answer n b more ih => exact ih hs

theorem ends_ifFails_of {s : Trace ε} {g : Nat → δ} (hs : s.ends) (hf : ∀ x, (f x).ends) :
    (s.ifFails f g).ends := by
  induction s with
  | done x => exact hf x
  | interrupted => cases hs
  | step more ih => exact ih hs
  | cut more ih => exact ih hs
  | answer n b more ih => rfl

/-- A trace is at most another if it is the same up to where it was interrupted. -/
inductive Le : Trace ε → Trace ε → Prop
  | interrupted (t : Trace ε) : Le .interrupted t
  | done (x : ε) : Le (.done x) (.done x)
  | step {s t : Trace ε} : Le s t → Le (.step s) (.step t)
  | cut {s t : Trace ε} : Le s t → Le (.cut s) (.cut t)
  | answer {s t : Trace ε} (n : Nat) (b : Bindings) : Le s t → Le (.answer n b s) (.answer n b t)

theorem Le.refl (t : Trace ε) : Le t t := by
  induction t with
  | done x => exact .done x
  | interrupted => exact .interrupted _
  | step more ih => exact .step ih
  | cut more ih => exact .cut ih
  | answer n b more ih => exact .answer n b ih

theorem Le.trans {s t u : Trace ε} (h : Le s t) (h' : Le t u) : Le s u := by
  induction h generalizing u with
  | interrupted t => exact .interrupted u
  | done x => exact h'
  | step _ ih => cases h' with | step h' => exact .step (ih h')
  | cut _ ih => cases h' with | cut h' => exact .cut (ih h')
  | answer n b _ ih => cases h' with | answer _ _ h' => exact .answer n b (ih h')

/-- A search that came to its end would not go on if it were allowed more. -/
theorem Le.eq_of_ends {s t : Trace ε} (h : Le s t) (he : s.ends) : s = t := by
  induction h with
  | interrupted t => cases he
  | done x => rfl
  | step _ ih => exact congrArg Trace.step (ih he)
  | cut _ ih => exact congrArg Trace.cut (ih he)
  | answer n b _ ih => exact congrArg (Trace.answer n b) (ih he)

theorem Le.andThen {s : Trace ε} (h : Le s s') (hf : ∀ x, Le (f x) (f' x)) :
    Le (s.andThen f) (s'.andThen f') := by
  induction h with
  | interrupted _ => exact .interrupted _
  | done x => exact hf x
  | step _ ih => exact .step ih
  | cut _ ih => exact .cut ih
  | answer n b _ ih => exact .answer n b ih

theorem Le.ifFails {s : Trace ε} (h : Le s s') (hf : ∀ x, Le (f x) (f' x)) (g : Nat → δ) :
    Le (s.ifFails f g) (s'.ifFails f' g) := by
  induction h with
  | interrupted _ => exact .interrupted _
  | done x => exact hf x
  | step _ ih => exact .step ih
  | cut _ ih => exact .cut ih
  | answer _ _ _ _ => exact .done _

/-- What a search comes to after some steps, and whether a branch was cut on the way. -/
inductive Leads : Trace ε → Nat → Bool → Trace ε → Prop
  | here (t : Trace ε) : Leads t 0 false t
  | step {t u : Trace ε} {j : Nat} {c : Bool} : Leads t j c u → Leads (.step t) (j + 1) c u
  | cut {t u : Trace ε} {j : Nat} {c : Bool} : Leads t j c u → Leads (.cut t) j true u

namespace Leads

variable {s t u : Trace ε} {i j : Nat} {c d : Bool}

theorem trans (h : Leads s i c t) (h' : Leads t j d u) : Leads s (i + j) (c || d) u := by
  induction h with
  | here t => simpa using h'
  | step _ ih => rw [Nat.add_right_comm]; exact .step (ih h')
  | cut _ ih => exact .cut (ih h')

theorem andThen (h : Leads s j c t) (f : ε → Trace δ) : Leads (s.andThen f) j c (t.andThen f) := by
  induction h with
  | here t => exact .here _
  | step _ ih => exact .step ih
  | cut _ ih => exact .cut ih

theorem ifFails (h : Leads s j c t) (f : ε → Trace δ) (g : Nat → δ) :
    Leads (s.ifFails f g) j c (t.ifFails f g) := by
  induction h with
  | here t => exact .here _
  | step _ ih => exact .step ih
  | cut _ ih => exact .cut ih

theorem ends (h : Leads s j c t) : s.ends = t.ends := by
  induction h with
  | here t => rfl
  | step _ ih => exact ih
  | cut _ ih => exact ih

theorem last? (h : Leads s j c t) : s.last? = t.last? := by
  induction h with
  | here t => rfl
  | step _ ih => exact ih
  | cut _ ih => exact ih

theorem answers (h : Leads s j c t) : s.answers = t.answers := by
  induction h with
  | here t => rfl
  | step _ ih => exact ih
  | cut _ ih => exact ih

theorem isCut (h : Leads s j c t) : s.isCut = (c || t.isCut) := by
  induction h with
  | here t => rfl
  | step _ ih => exact ih
  | cut _ ih => rfl

theorem steps (h : Leads s j c t) : s.steps = t.steps + j := by
  induction h with
  | here t => rfl
  | step _ ih => exact congrArg (· + 1) ih
  | cut _ ih => exact ih

end Leads

/-- A search that does not come to an answer or to its end in fewer than so many steps. -/
def Slow : Trace ε → Nat → Prop
  | .done _, m => m = 0
  | .interrupted, _ => True
  | .step more, m => more.Slow (m - 1)
  | .cut more, m => more.Slow m
  | .answer _ _ _, m => m = 0

theorem slow_zero (t : Trace ε) : t.Slow 0 := by
  induction t with
  | done x => rfl
  | interrupted => trivial
  | step more ih => exact ih
  | cut more ih => exact ih
  | answer n b more ih => rfl

theorem Slow.andThen {s : Trace ε} (h : s.Slow m) (f : ε → Trace δ) : (s.andThen f).Slow m := by
  induction s generalizing m with
  | done x => rw [show m = 0 from h]; exact slow_zero _
  | interrupted => trivial
  | step more ih => exact ih h
  | cut more ih => exact ih h
  | answer n b more ih => exact h

theorem Slow.ifFails {s : Trace ε} (h : s.Slow m) (f : ε → Trace δ) (g : Nat → δ) :
    (s.ifFails f g).Slow m := by
  induction s generalizing m with
  | done x => rw [show m = 0 from h]; exact slow_zero _
  | interrupted => trivial
  | step more ih => exact ih h
  | cut more ih => exact ih h
  | answer n b more ih => exact h

theorem Slow.of_leads {t u : Trace ε} {j : Nat} {c : Bool} (hl : Leads t j c u) (h : u.Slow m) :
    t.Slow (m + j) := by
  induction hl with
  | here t => exact h
  | step _ ih => exact ih h
  | cut _ ih => exact ih h

theorem Slow.mono {t : Trace ε} {m' : Nat} (h : t.Slow m) (hm : m' ≤ m) : t.Slow m' := by
  induction t generalizing m m' with
  | done x => exact Nat.le_zero.mp (Nat.le_trans hm (Nat.le_of_eq h))
  | interrupted => trivial
  | step more ih => exact ih h (Nat.sub_le_sub_right hm 1)
  | cut more ih => exact ih h hm
  | answer n b more ih => exact Nat.le_zero.mp (Nat.le_trans hm (Nat.le_of_eq h))

theorem not_slow {t : Trace ε} (he : t.ends) (hm : t.steps < m) : ¬ t.Slow m := by
  induction t generalizing m with
  | done x => exact Nat.ne_of_gt hm
  | interrupted => cases he
  | step more ih => exact ih he (Nat.lt_sub_of_add_lt hm)
  | cut more ih => exact ih he hm
  | answer n b more ih => exact Nat.ne_of_gt (Nat.lt_of_le_of_lt (Nat.zero_le _) hm)

end Trace

end GraphRules.Reference
