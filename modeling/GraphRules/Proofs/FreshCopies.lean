import GraphRules.Proofs.Coupling
import GraphRules.Proofs.LongRuns

/-! Copies that are renamed apart. A search that gives out every scope once, and one whose copies
get a scope that no variable of the state has, come upon the same things: their bindings are made in
the same order, of the same variables up to a renaming. So the answers of the machine are those of
plain resolution, as long as scopes are not given out again and foreign predicates bring in no
variables. -/
namespace GraphRules

open Search

variable {R : Var → Var → Prop} {P : Var → Prop}

namespace Term

mutual

theorem Rel.restrict :
    ∀ {s t : Term}, s.Rel R t → (∀ w ∈ t.occurrences, P w) → s.Rel (fun v w => R v w ∧ P w) t
  | .atom _, .atom _, h, _ => h
  | .number _, .number _, h, _ => h
  | .var _, .var w, h, hP => ⟨h, hP w (by simp [occurrences])⟩
  | .compound _ _, .compound _ _, h, hP => ⟨h.1, RelAll.restrict h.2 hP⟩

theorem RelAll.restrict : ∀ {ss ts : List Term}, RelAll R ss ts → (∀ w ∈ occurrencesList ts, P w) →
    RelAll (fun v w => R v w ∧ P w) ss ts
  | [], [], _, _ => trivial
  | _ :: _, _ :: _, h, hP =>
    ⟨Rel.restrict h.1 fun w hw => hP w (List.mem_append_left _ hw),
      RelAll.restrict h.2 fun w hw => hP w (List.mem_append_right _ hw)⟩

end

end Term

namespace Coupled

variable {m n t : Nat} {b b' : Bindings}

theorem restrict (h : Coupled R m n b b') (hb : ∀ w ∈ b'.occurrences, w.scope ≤ t) :
    Coupled (fun v w => R v w ∧ w.scope ≤ t) m t b b' where
  unique := ⟨fun _ _ _ hv hv' => h.unique.1 hv.1 hv'.1, fun _ _ _ hv hv' => h.unique.2 hv.1 hv'.1⟩
  names v w hvw := h.names v w hvw.1
  scopes v w hvw := ⟨(h.scopes v w hvw.1).1, hvw.2⟩
  trails := by
    have htrails := h.trails
    rw [Bindings.occurrences] at hb
    generalize b.trail = l at htrails
    generalize b'.trail = l' at htrails hb
    induction htrails with
    | nil => exact .nil
    | @cons p q l l' hpq _ ih =>
      obtain ⟨hq, hrest⟩ := List.forall_mem_append.mp (List.flatMap_cons ▸ hb)
      obtain ⟨hvar, hterm⟩ := List.forall_mem_cons.mp hq
      exact .cons ⟨⟨hpq.1, hvar⟩, hpq.2.restrict hterm⟩ (ih hrest)

end Coupled

namespace Reference

variable {k m n depth t : Nat} {b b' : Bindings} {gs gs' rest rest' : List Goal} {e : Engine}
  {next next' : Next Nat} {call call' goal : Term} {s : Trace Nat}

/-- No variable of a copy that is renamed apart is one of the state it is made for. -/
theorem copy_apart_disjoint {c : Clause} {v : Var} (hv : v ∈ stateVars b call rest) :
    v ∉ (c.rename (Counting.apart.copy n b call rest)).occurrences := by
  have hle := Var.scope_le_topScope hv
  intro hmem
  rw [Clause.occurrences_rename] at hmem
  obtain ⟨w, -, rfl⟩ := List.mem_map.mp hmem
  exact absurd hle (Nat.not_succ_le_self _)

/-- Bindings of two searches that have tried as many clauses, made in the same order up to a
renaming that keeps variables as they are written. -/
def SameTries (m₀ m : Nat) (b : Bindings) (n : Nat) (b' : Bindings) : Prop :=
  m = n ∧ m₀ ≤ m ∧ ∃ R t, (∀ v w, Same v w → R v w) ∧ Coupled R m t b b'

abbrev AlikeTries (m : Nat) : Trace Nat → Trace Nat → Prop :=
  Trace.Alike (SameTries m) fun x y => x = y ∧ m ≤ x

theorem AlikeTries.mono {t : Trace Nat} (h : AlikeTries n s t) (hm : m ≤ n) : AlikeTries m s t :=
  h.imp (fun _ _ _ _ ha => ⟨ha.1, hm.trans ha.2.1, ha.2.2⟩) fun _ _ hxy => ⟨hxy.1, hm.trans hxy.2⟩

theorem GoalPair.restrict (hg : List.Forall₂ (GoalPair R) gs gs')
    (hP : ∀ w ∈ gs'.flatMap (·.term.occurrences), P w) :
    List.Forall₂ (GoalPair fun v w => R v w ∧ P w) gs gs' := by
  induction hg with
  | nil => exact .nil
  | cons hgg _ ih =>
    obtain ⟨hfirst, hrest⟩ := List.forall_mem_append.mp (List.flatMap_cons ▸ hP)
    exact .cons ⟨hgg.term.restrict hfirst, hgg.depth⟩ (ih hrest)

end Reference

namespace Engine

open Reference

def leakAnswer : List Term → Outcome
  | [t] => .succeed [(t, .var ⟨"Z", 1⟩)]
  | _ => .fail

def leak : Predicate :=
  { signature := ⟨"leak", 1⟩, kind := .attribute, scope := {}, answer := fun _ => leakAnswer }

def leakEngine : Engine :=
  { library := .ofGraph { predicates := [leak] } { nodes := [], edges := [] }
    database := Theory.empty.insertAll [⟨.compound "p" [.named "Z"], []⟩] }

def leakGoal : Term := .compound "," [.compound "leak" [.named "A"], .compound "p" [.atom "b"]]

end Engine

end GraphRules
