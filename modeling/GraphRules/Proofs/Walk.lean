import GraphRules.Term.Bindings
import Mathlib.Data.List.Basic

/-! Walks through bindings. Unification binds a variable only at the end of a walk and only to the
end of another one, so a chain of variables leads from older bindings to newer ones and comes to an
end. -/
namespace GraphRules

theorem Term.size_pos (t : Term) : 0 < t.size := by
  cases t <;> simp only [Term.size] <;> omega

namespace Bindings

def Stops (l : List (Var × Term)) (t : Term) : Prop := ∀ v, t = .var v → l.lookup v = none

/-- Every variable is bound to the end of a walk through the older bindings, and not to itself. -/
def ForwardTrail : List (Var × Term) → Prop
  | [] => True
  | (v, t) :: older => (t ≠ .var v ∧ Stops older t) ∧ ForwardTrail older

def Forward (b : Bindings) : Prop := ForwardTrail b.trail

def follow : List (Var × Term) → Term → Term
  | [], t => t
  | (v, u) :: older, t => if follow older t = .var v then u else follow older t

inductive Leads (l : List (Var × Term)) : Nat → Term → Term → Prop
  | stop {n : Nat} {t : Term} : Stops l t → Leads l n t t
  | step {n : Nat} {v : Var} {u t : Term} :
    l.lookup v = some u → Leads l n u t → Leads l (n + 1) (.var v) t

variable {l : List (Var × Term)} {t u : Term} {b : Bindings} {n : Nat} {v : Var}

theorem walkSteps_of_leads (h : Leads b.trail n t u) : b.walkSteps n t = u := by
  induction h with
  | @stop n t hs =>
    cases n with
    | zero => rfl
    | succ n =>
      cases t with
      | var v => simp [walkSteps, find?_eq_lookup, hs v rfl]
      | atom a => rfl
      | number x => rfl
      | compound f as => rfl
  | step hv _ ih => simp [walkSteps, find?_eq_lookup, hv, ih]

theorem Leads.mono {m : Nat} (h : Leads l n t u) (hm : n ≤ m) : Leads l m t u := by
  induction h generalizing m with
  | stop hs => exact .stop hs
  | step hv _ ih =>
    obtain ⟨k, rfl⟩ : ∃ k, m = k + 1 := ⟨m - 1, by omega⟩
    exact .step hv (ih (by omega))

theorem lookup_cons_ne (older : List (Var × Term)) {w : Var} (u : Term) (h : w ≠ v) :
    ((v, u) :: older).lookup w = older.lookup w := by
  have hb : (w == v) = false := by simpa using h
  simp [List.lookup_cons, hb]

/-- One more binding makes a walk longer by one step at most. -/
theorem Leads.cons {older : List (Var × Term)} (hv : older.lookup v = none) (hu : u ≠ .var v)
    (hs : Stops older u) {t' : Term} (h : Leads older n t t') :
    Leads ((v, u) :: older) (n + 1) t (if t' = .var v then u else t') := by
  induction h with
  | @stop n t ht =>
    by_cases htv : t = .var v
    · subst htv
      rw [if_pos rfl]
      refine .step (by simp) (.stop ?_)
      intro w hw
      have hwv : w ≠ v := fun e => hu (by rw [hw, e])
      rw [lookup_cons_ne older u hwv]
      exact hs w hw
    · rw [if_neg htv]
      refine .stop ?_
      intro w hw
      have hwv : w ≠ v := fun e => htv (by rw [hw, e])
      rw [lookup_cons_ne older u hwv]
      exact ht w hw
  | @step n w x t' hw _ ih =>
    have hwv : w ≠ v := fun e => by simp [e, hv] at hw
    exact .step (by rw [lookup_cons_ne older u hwv, hw]) ih

theorem leads_follow (h : ForwardTrail l) (hu : (l.map Prod.fst).Nodup) (t : Term) :
    Leads l l.length t (follow l t) := by
  induction l with
  | nil => exact .stop fun _ _ => rfl
  | cons p older ih =>
    obtain ⟨v, u⟩ := p
    have hnew := List.nodup_cons.mp hu
    have hv : older.lookup v = none := (lookup_eq_none_iff older v).mpr hnew.1
    exact (ih h.2 hnew.2).cons hv h.1.1 h.1.2

theorem length_le_weight (b : Bindings) : b.trail.length ≤ b.weight := by
  rw [b.weight_eq]
  induction b.trail with
  | nil => simp
  | cons p l ih =>
    have := p.2.size_pos
    simp only [List.length_cons, List.map_cons, Term.sizes]
    omega

theorem walkSteps_eq_follow (h : b.Forward) (hn : b.trail.length ≤ n) (t : Term) :
    b.walkSteps n t = follow b.trail t :=
  walkSteps_of_leads ((leads_follow h b.unique t).mono hn)

theorem walk_eq_follow (h : b.Forward) (t : Term) : b.walk t = follow b.trail t :=
  walkSteps_eq_follow h b.length_le_weight t

theorem stops_follow (h : ForwardTrail l) (t : Term) : Stops l (follow l t) := by
  induction l with
  | nil => exact fun _ _ => rfl
  | cons p older ih =>
    obtain ⟨v, u⟩ := p
    intro w hw
    simp only [follow] at hw
    split at hw
    · have hwv : w ≠ v := fun e => h.1.1 (by rw [hw, e])
      rw [lookup_cons_ne older u hwv]
      exact h.1.2 w hw
    · next hne =>
      have hwv : w ≠ v := fun e => hne (by rw [hw, e])
      rw [lookup_cons_ne older u hwv]
      exact ih h.2 w hw

theorem find?_walk (h : b.Forward) (hv : b.walk t = .var v) : b.find? v = none := by
  rw [find?_eq_lookup]
  exact stops_follow h t v (by rw [← walk_eq_follow h, hv])

theorem walk_nonvar (b : Bindings) (h : ∀ v, t ≠ .var v) : b.walk t = t := by
  unfold walk
  cases b.weight with
  | zero => rfl
  | succ n =>
    cases t with
    | var v => exact absurd rfl (h v)
    | atom a => rfl
    | number x => rfl
    | compound f as => rfl

theorem walk_unbound (b : Bindings) (h : b.find? v = none) : b.walk (.var v) = .var v := by
  unfold walk
  cases b.weight with
  | zero => rfl
  | succ n => simp [walkSteps, h]

theorem trail_bind (h : b.find? v = none) (t : Term) : (b.bind v t).trail = (v, t) :: b.trail := by
  simp [bind, h]

theorem find?_bind (h : b.find? v = none) (t : Term) (w : Var) :
    (b.bind v t).find? w = if w = v then some t else b.find? w := by
  rw [find?_eq_lookup, find?_eq_lookup, trail_bind h]
  by_cases hw : w = v
  · simp [hw]
  · rw [lookup_cons_ne _ _ hw, if_neg hw]

theorem forward_empty : empty.Forward := trivial

/-- Binding the end of one walk to the end of another keeps chains of variables going forward. -/
theorem Forward.bind (h : b.Forward) (hv : b.find? v = none) (hne : t ≠ .var v)
    (ht : ∀ w, t = .var w → b.find? w = none) : (b.bind v t).Forward := by
  unfold Forward
  rw [trail_bind hv]
  refine ⟨⟨hne, ?_⟩, h⟩
  intro w hw
  rw [← find?_eq_lookup]
  exact ht w hw

theorem walk_of_find? (h : b.Forward) (hv : b.find? v = some t) : b.walk (.var v) = b.walk t := by
  rw [find?_eq_lookup] at hv
  have hleads := leads_follow h b.unique (.var v)
  have hlen := b.length_le_weight
  rw [walk_eq_follow h]
  generalize hn : b.trail.length = n at hleads
  generalize follow b.trail (.var v) = u at hleads
  cases hleads with
  | stop hs => rw [hs v rfl] at hv; cases hv
  | @step n _ w _ hw hrest =>
    rw [hv] at hw
    cases hw
    exact (walkSteps_of_leads (hrest.mono (by omega))).symm

end Bindings

end GraphRules
