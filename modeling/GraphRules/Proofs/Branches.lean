import GraphRules.Proofs.Reference

/-! Resolution with a count of scopes for each branch. A branch does not depend on what was tried
before it, so that two lists of goals are solved by solving the second from every answer to the
first. -/
namespace GraphRules.Reference
open Search

namespace Trace

def bind : Trace Unit → (Nat → Bindings → Trace Unit) → Trace Unit
  | .done _, _ => .done ()
  | .interrupted, _ => .interrupted
  | .step more, f => .step (more.bind f)
  | .cut more, f => .cut (more.bind f)
  | .answer n b more, f => (f n b).andThen fun _ => more.bind f

theorem bind_andThen (s : Trace Unit) (t : Unit → Trace Unit) (f : Nat → Bindings → Trace Unit) :
    (s.andThen t).bind f = (s.bind f).andThen fun x => (t x).bind f := by
  induction s with
  | done x => rfl
  | interrupted => rfl
  | step more ih => simp only [andThen, bind, ih]
  | cut more ih => simp only [andThen, bind, ih]
  | answer n b more ih => simp only [andThen, bind, ih, andThen_assoc]

theorem bind_ifFails (s : Trace Unit) (t : Unit → Trace Unit) (f : Nat → Bindings → Trace Unit) :
    (s.ifFails t fun _ => ()).bind f = s.ifFails (fun x => (t x).bind f) fun _ => () := by
  induction s with
  | done x => rfl
  | interrupted => rfl
  | step more ih => simp only [ifFails, bind, ih]
  | cut more ih => simp only [ifFails, bind, ih]
  | answer n b more ih => rfl

theorem Le.bind {s s' : Trace Unit} {f f' : Nat → Bindings → Trace Unit} (h : Le s s')
    (hf : ∀ n b, Le (f n b) (f' n b)) : Le (s.bind f) (s'.bind f') := by
  induction h with
  | interrupted _ => exact .interrupted _
  | done x => exact .done _
  | step _ ih => exact .step ih
  | cut _ ih => exact .cut ih
  | answer n b _ ih => exact (hf n b).andThen fun _ => ih

/-- All answers satisfy a condition; those before the first cut, when `strict`. -/
def Each {ε : Type} (strict : Bool) (P : Nat → Bindings → Prop) : Trace ε → Prop
  | .done _ => True
  | .interrupted => True
  | .step more => more.Each strict P
  | .cut more => strict ∨ more.Each strict P
  | .answer n b more => P n b ∧ more.Each strict P

/-- A search that comes to its end without a cut has an answer that satisfies a condition. -/
def Finds {ε : Type} (Q : Nat → Bindings → Prop) (t : Trace ε) : Prop :=
  t.ends → t.isCut = false → ∃ p ∈ t.answers, Q p.1 p.2

section Conditions

variable {ε : Type} {strict : Bool} {P P' Q Q' : Nat → Bindings → Prop} {t : Trace ε}
  {s : Trace Unit} {g : Nat → Unit}

theorem Each.imp (h : t.Each strict P) (hP : ∀ n b, P n b → P' n b) : t.Each strict P' := by
  induction t with
  | done x => trivial
  | interrupted => trivial
  | step more ih => exact ih h
  | cut more ih => exact h.imp_right ih
  | answer n b more ih => exact ⟨hP n b h.1, ih h.2⟩

theorem Each.of_le {s : Trace ε} (h : t.Each strict P) (hle : Le s t) : s.Each strict P := by
  induction hle with
  | interrupted t => trivial
  | done x => trivial
  | step _ ih => exact ih h
  | cut _ ih => exact h.imp_right ih
  | answer n b _ ih => exact ⟨h.1, ih h.2⟩

theorem Each.andThen {f : Unit → Trace Unit} (hs : s.Each strict P) (hf : (f ()).Each strict P) :
    (s.andThen f).Each strict P := by
  induction s with
  | done x => exact hf
  | interrupted => trivial
  | step more ih => exact ih hs
  | cut more ih => exact hs.imp_right ih
  | answer n b more ih => exact ⟨hs.1, ih hs.2⟩

theorem Each.bind {f : Nat → Bindings → Trace Unit} (hs : s.Each strict P')
    (hf : ∀ n b, P' n b → (f n b).Each strict P) : (s.bind f).Each strict P := by
  induction s with
  | done x => trivial
  | interrupted => trivial
  | step more ih => exact ih hs
  | cut more ih => exact hs.imp_right ih
  | answer n b more ih => exact (hf n b hs.1).andThen (ih hs.2)

/-- What comes after a search that failed need only be looked at when that search came to its end
without a cut. -/
theorem Each.ifFails {f : Unit → Trace Unit}
    (h : s.ends → s.isCut = false → s.answers = [] → (f ()).Each true P) :
    (s.ifFails f g).Each true P := by
  induction s with
  | done x => exact h rfl rfl rfl
  | interrupted => trivial
  | step more ih => exact ih h
  | cut more ih => exact .inl rfl
  | answer n b more ih => trivial

theorem Each.of_mem (h : t.Each strict P) (hc : strict = false ∨ t.isCut = false)
    {p : Nat × Bindings} (hp : p ∈ t.answers) : P p.1 p.2 := by
  induction t with
  | done x => cases hp
  | interrupted => cases hp
  | step more ih => exact ih h hc hp
  | cut more ih =>
    obtain hs | hs := hc
    · exact ih (h.resolve_left (by simp [hs])) (.inl hs) hp
    · cases hs
  | answer n b more ih =>
    rcases List.mem_cons.mp hp with rfl | hp
    · exact h.1
    · exact ih h.2 hc hp

theorem ends_andThen (s : Trace Unit) (f : Unit → Trace Unit) :
    (s.andThen f).ends = (s.ends && (f ()).ends) := by
  induction s with
  | done x => rfl
  | interrupted => rfl
  | step more ih => exact ih
  | cut more ih => exact ih
  | answer n b more ih => exact ih

theorem isCut_andThen (h : s.ends) (f : Unit → Trace Unit) :
    (s.andThen f).isCut = (s.isCut || (f ()).isCut) := by
  induction s with
  | done x => rfl
  | interrupted => cases h
  | step more ih => exact ih h
  | cut more ih => rfl
  | answer n b more ih => exact ih h

theorem answers_andThen (h : s.ends) (f : Unit → Trace Unit) :
    (s.andThen f).answers = s.answers ++ (f ()).answers := by
  induction s with
  | done x => rfl
  | interrupted => cases h
  | step more ih => exact ih h
  | cut more ih => exact ih h
  | answer n b more ih => exact congrArg ((n, b) :: ·) (ih h)

theorem Finds.andThen {f : Unit → Trace Unit} (h : s.Finds Q ∨ (f ()).Finds Q) :
    (s.andThen f).Finds Q := by
  intro he hc
  rw [ends_andThen, Bool.and_eq_true] at he
  rw [isCut_andThen he.1, Bool.or_eq_false_iff] at hc
  rw [answers_andThen he.1]
  obtain h | h := h
  · obtain ⟨p, hp, hQ⟩ := h he.1 hc.1
    exact ⟨p, List.mem_append_left _ hp, hQ⟩
  · obtain ⟨p, hp, hQ⟩ := h he.2 hc.2
    exact ⟨p, List.mem_append_right _ hp, hQ⟩

theorem ends_bind {f : Nat → Bindings → Trace Unit} (he : (s.bind f).ends) :
    s.ends ∧ ∀ p ∈ s.answers, (f p.1 p.2).ends ∧
      ∀ q ∈ (f p.1 p.2).answers, q ∈ (s.bind f).answers := by
  induction s with
  | done x => exact ⟨rfl, fun p hp => by cases hp⟩
  | interrupted => cases he
  | step more ih => exact ih he
  | cut more ih => exact ih he
  | answer n b more ih =>
    rw [Trace.bind, ends_andThen, Bool.and_eq_true] at he
    rw [Trace.bind, answers_andThen he.1]
    refine ⟨(ih he.2).1, fun p hp => ?_⟩
    rcases List.mem_cons.mp hp with rfl | hp
    · exact ⟨he.1, fun q hq => List.mem_append_left _ hq⟩
    · exact ⟨((ih he.2).2 p hp).1, fun q hq => List.mem_append_right _ (((ih he.2).2 p hp).2 q hq)⟩

theorem isCut_bind {f : Nat → Bindings → Trace Unit} (he : (s.bind f).ends)
    (hc : (s.bind f).isCut = false) :
    s.isCut = false ∧ ∀ p ∈ s.answers, (f p.1 p.2).isCut = false := by
  induction s with
  | done x => exact ⟨rfl, fun p hp => by cases hp⟩
  | interrupted => cases he
  | step more ih => exact ih he hc
  | cut more ih => cases hc
  | answer n b more ih =>
    rw [Trace.bind, ends_andThen, Bool.and_eq_true] at he
    rw [Trace.bind, isCut_andThen he.1, Bool.or_eq_false_iff] at hc
    refine ⟨(ih he.2 hc.2).1, fun p hp => ?_⟩
    rcases List.mem_cons.mp hp with rfl | hp
    · exact hc.1
    · exact (ih he.2 hc.2).2 p hp

theorem Finds.bind {f : Nat → Bindings → Trace Unit} (hs : s.Finds Q')
    (hf : ∀ n b, Q' n b → (f n b).Finds Q) : (s.bind f).Finds Q := by
  intro he hc
  obtain ⟨hse, hfe⟩ := ends_bind he
  obtain ⟨hsc, hfc⟩ := isCut_bind he hc
  obtain ⟨p, hp, hQ'⟩ := hs hse hsc
  obtain ⟨q, hq, hQ⟩ := hf p.1 p.2 hQ' (hfe p hp).1 (hfc p hp)
  exact ⟨q, (hfe p hp).2 q hq, hQ⟩

theorem Finds.of_le {s : Trace ε} (h : t.Finds Q) (hle : Le s t) : s.Finds Q := by
  intro he
  obtain rfl := hle.eq_of_ends he
  exact h he

theorem Finds.ifFails {f : Unit → Trace Unit} (hs : s.Each true fun _ _ => False)
    (hf : (f ()).Finds Q) : (s.ifFails f g).Finds Q := by
  induction s with
  | done x => exact hf
  | interrupted => intro he; cases he
  | step more ih => exact ih hs
  | cut more ih => intro _ hc; cases hc
  | answer n b more ih => exact hs.1.elim

theorem Finds.and_each (h : t.Finds Q) (he : t.Each strict P) :
    t.Finds fun n b => Q n b ∧ P n b := by
  intro hends hc
  obtain ⟨p, hp, hQ⟩ := h hends hc
  exact ⟨p, hp, hQ, he.of_mem (.inr hc) hp⟩

theorem Finds.imp (h : t.Finds Q) (hQ : ∀ n b, Q n b → Q' n b) : t.Finds Q' := by
  intro he hc
  obtain ⟨p, hp, h⟩ := h he hc
  exact ⟨p, hp, hQ _ _ h⟩

end Conditions

end Trace

abbrev branches (e : Engine) : Nat → Next Unit := solve .perBranch e

variable {e : Engine} {next f : Next Unit} {tail : List Goal}

theorem attempts_bind_le
    (h : ∀ n b gs, Trace.Le (next n b (gs ++ tail)) ((next n b gs).bind fun n b => f n b tail))
    (b : Bindings) (call : Term) (depth : Nat) (rest : List Goal) (cs : List Clause) (n : Nat) :
    Trace.Le (attempts .perBranch next b call depth (rest ++ tail) cs n)
      ((attempts .perBranch next b call depth rest cs n).bind fun n b => f n b tail) := by
  induction cs with
  | nil => exact .done _
  | cons c cs ih =>
    simp only [attempts, Trace.bind_andThen]
    refine Trace.Le.andThen ?_ fun _ => ih
    rw [attempt_plain Counting.plain_perBranch, attempt_plain Counting.plain_perBranch]
    cases b.unify? call (c.rename (n + 1)).head with
    | none => exact .done _
    | some b' =>
      dsimp only
      rw [← List.append_assoc]
      exact h _ _ _

theorem called_bind_le
    (h : ∀ n b gs, Trace.Le (next n b (gs ++ tail)) ((next n b gs).bind fun n b => f n b tail))
    (n : Nat) (b : Bindings) (goal : Term) (s : Signature) (depth : Nat) (rest : List Goal) :
    Trace.Le (called .perBranch e next n b goal s depth (rest ++ tail))
      ((called .perBranch e next n b goal s depth rest).bind fun n b => f n b tail) := by
  unfold called
  split
  · cases foreign? e b goal s with
    | none => exact .done _
    | some b' => exact h _ _ _
  · split
    · exact .refl _
    · exact attempts_bind_le h _ _ _ _ _ _

theorem work_bind_le
    (h : ∀ n b gs, Trace.Le (next n b (gs ++ tail)) ((next n b gs).bind fun n b => f n b tail))
    (n : Nat) (b : Bindings) (g : Goal) (rest : List Goal) :
    Trace.Le (work .perBranch e next n b g (rest ++ tail))
      ((work .perBranch e next n b g rest).bind fun n b => f n b tail) := by
  unfold work
  cases task (b.walk g.term) with
  | done => exact h _ _ _
  | failing => exact .done _
  | both x y => exact h _ _ (⟨x, g.depth⟩ :: ⟨y, g.depth⟩ :: rest)
  | either x y =>
    dsimp only
    rw [Trace.bind_andThen]
    exact (h _ _ (⟨x, g.depth⟩ :: rest)).andThen fun _ => h _ _ (⟨y, g.depth⟩ :: rest)
  | negation x =>
    dsimp only [Counting.perBranch]
    rw [Trace.bind_ifFails]
    exact (Trace.Le.refl _).ifFails (fun _ => h _ _ _) _
  | comparison op x y =>
    dsimp only
    split
    · exact h _ _ _
    · exact .done _
  | call s => exact called_bind_le h _ _ _ _ _ _

/-- Solving two lists of goals is solving the second from every answer to the first. -/
theorem branches_append_le (k n : Nat) (b : Bindings) (gs hs : List Goal) :
    Trace.Le (branches e k n b (gs ++ hs))
      ((branches e k n b gs).bind fun n b => branches e k n b hs) := by
  induction k generalizing n b gs with
  | zero => exact .interrupted _
  | succ k ih =>
    have hstep : ∀ n b gs, Trace.Le (branches e k n b (gs ++ hs))
        ((branches e k n b gs).bind fun n b => branches e (k + 1) n b hs) := fun n b gs =>
      (ih n b gs).trans ((Trace.Le.refl _).bind fun n b => solve_le_succ _ _ _ _)
    cases gs with
    | nil =>
      have heq : (branches e (k + 1) n b []).bind (fun n b => branches e (k + 1) n b hs) =
          branches e (k + 1) n b hs := Trace.andThen_done _
      rw [heq]
      exact .refl _
    | cons g rest => exact .step (work_bind_le hstep n b g rest)

theorem branches_append {k n : Nat} {b : Bindings} {gs hs : List Goal}
    (he : (branches e k n b (gs ++ hs)).ends) :
    branches e k n b (gs ++ hs) = (branches e k n b gs).bind fun n b => branches e k n b hs :=
  (branches_append_le k n b gs hs).eq_of_ends he

end GraphRules.Reference
