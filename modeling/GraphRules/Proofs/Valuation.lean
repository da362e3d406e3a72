import GraphRules.Proofs.Flat
import Mathlib.Data.Set.Basic

/-! What bindings say about the values of variables. Bindings admit some valuations of the variables
by constants; unification keeps those that make the two terms equal, and fails only if there are
none. -/
namespace GraphRules

inductive Constant where
  | atom (name : String)
  | number (value : Number)
  deriving DecidableEq, Inhabited

def Constant.toTerm : Constant → Term
  | .atom name => .atom name
  | .number x => .number x

abbrev Valuation := Var → Constant

def Term.constant (θ : Valuation) : Term → Constant
  | .atom name => .atom name
  | .number x => .number x
  | .var v => θ v
  | .compound _ _ => default

theorem Term.constant_congr {θ θ' : Valuation} {t : Term} (h : ∀ v ∈ t.occurrences, θ v = θ' v) :
    t.constant θ = t.constant θ' := by
  cases t with
  | var v => exact h v (by simp [Term.occurrences])
  | atom a => rfl
  | number x => rfl
  | compound f as => rfl

theorem Term.map_constant_congr {θ θ' : Valuation} {ts : List Term}
    (h : ∀ v ∈ Term.occurrencesList ts, θ v = θ' v) :
    ts.map (Term.constant θ) = ts.map (Term.constant θ') := by
  induction ts with
  | nil => rfl
  | cons t ts ih =>
    rw [List.map_cons, List.map_cons, ih fun v hv => h v (List.mem_append_right _ hv),
      Term.constant_congr fun v hv => h v (List.mem_append_left _ hv)]

namespace Bindings

variable {b b' : Bindings} {s t : Term} {θ θ' : Valuation} {ss ts : List Term} {S : Set Var}

/-- Every bound variable has the value of the term it is bound to. -/
def Admits (b : Bindings) (θ : Valuation) : Prop := ∀ v t, b.find? v = some t → θ v = t.constant θ

theorem admits_empty (θ : Valuation) : empty.Admits θ :=
  fun v t h => by simp [find?_eq_lookup, empty] at h

theorem Admits.walkSteps (h : b.Admits θ) (n : Nat) (t : Term) :
    (b.walkSteps n t).constant θ = t.constant θ := by
  induction n generalizing t with
  | zero => cases t <;> rfl
  | succ n ih =>
    cases t with
    | var v =>
      simp only [Bindings.walkSteps]
      cases hv : b.find? v with
      | none => rfl
      | some u => exact (ih u).trans (h v u hv).symm
    | atom a => rfl
    | number x => rfl
    | compound f as => rfl

theorem Admits.walk (h : b.Admits θ) (t : Term) : (b.walk t).constant θ = t.constant θ :=
  h.walkSteps _ t

theorem admits_bind {v : Var} (hv : b.find? v = none) (u : Term) :
    (b.bind v u).Admits θ ↔ b.Admits θ ∧ θ v = u.constant θ := by
  constructor
  · intro h
    refine ⟨fun w t hw => ?_, h v u (by rw [find?_bind hv, if_pos rfl])⟩
    have hne : w ≠ v := fun e => by rw [e, hv] at hw; cases hw
    exact h w t (by rw [find?_bind hv, if_neg hne, hw])
  · rintro ⟨h, hu⟩ w t hw
    rw [find?_bind hv] at hw
    split at hw
    · next e => cases hw; rw [e]; exact hu
    · exact h w t hw

/-- Making two terms equal keeps the valuations under which they are. -/
theorem admits_matchFlat (h : b.Tidy) (hm : b.matchFlat s t = some b') :
    b'.Admits θ ↔ b.Admits θ ∧ s.constant θ = t.constant θ := by
  obtain ⟨hw, h'⟩ | ⟨v, u, hw, _, h'⟩ | ⟨_, _, _, h'⟩ := matchFlat_cases b s t
  · rw [h'] at hm
    cases hm
    exact ⟨fun hb => ⟨hb, by rw [← hb.walk s, ← hb.walk t, hw]⟩, And.left⟩
  · rw [h'] at hm
    cases hm
    obtain ⟨hv, hu⟩ | ⟨hv, hu⟩ := hw
    · rw [admits_bind (find?_walk h.forward hv)]
      refine and_congr_right fun hb => ?_
      rw [← hb.walk s, ← hb.walk t, hv, hu]
      rfl
    · rw [admits_bind (find?_walk h.forward hv)]
      refine and_congr_right fun hb => ?_
      rw [← hb.walk s, ← hb.walk t, hv, hu, eq_comm]
      rfl
  · rw [h'] at hm
    cases hm

theorem not_equal_of_matchFlat (h : b.Tidy) (hs : s.isFlat) (ht : t.isFlat)
    (hm : b.matchFlat s t = none) (hb : b.Admits θ) : s.constant θ ≠ t.constant θ := by
  obtain ⟨_, h'⟩ | ⟨_, _, _, _, h'⟩ | ⟨hne, hvs, hvt, _⟩ := matchFlat_cases b s t
  · rw [h'] at hm
    cases hm
  · rw [h'] at hm
    cases hm
  · rw [← hb.walk s, ← hb.walk t]
    have hs' := h.walk hs
    have ht' := h.walk ht
    revert hne hvs hvt hs' ht'
    generalize b.walk s = s'
    generalize b.walk t = t'
    intro hne hvs hvt hs' ht' heq
    cases s' with
    | var v => exact hvs v rfl
    | compound f as => cases hs'
    | atom a =>
      cases t' with
      | var v => exact hvt v rfl
      | compound f as => cases ht'
      | atom a' => exact hne (by simpa [Term.constant] using heq)
      | number x => cases heq
    | number x =>
      cases t' with
      | var v => exact hvt v rfl
      | compound f as => cases ht'
      | atom a => cases heq
      | number x' => exact hne (by simpa [Term.constant] using heq)

theorem admits_unifyAll (h : b.Tidy) (hs : ss.all Term.isFlat) (ht : ts.all Term.isFlat)
    (hm : unifyAll matchFlat b ss ts = some b') :
    b'.Admits θ ↔ b.Admits θ ∧ ss.map (Term.constant θ) = ts.map (Term.constant θ) := by
  induction ss generalizing b ts with
  | nil =>
    cases ts with
    | nil => cases hm; simp
    | cons t ts => cases hm
  | cons s ss ih =>
    cases ts with
    | nil => cases hm
    | cons t ts =>
      simp only [List.all_cons, Bool.and_eq_true] at hs ht
      simp only [unifyAll] at hm
      cases hb : b.matchFlat s t with
      | none => rw [hb] at hm; cases hm
      | some b₁ =>
        rw [hb] at hm
        rw [ih (h.matchFlat hs.1 ht.1 hb) hs.2 ht.2 hm, admits_matchFlat h hb,
          List.map_cons, List.map_cons, List.cons.injEq, and_assoc]

theorem not_equal_of_unifyAll (h : b.Tidy) (hs : ss.all Term.isFlat) (ht : ts.all Term.isFlat)
    (hm : unifyAll matchFlat b ss ts = none) (hb : b.Admits θ) :
    ss.map (Term.constant θ) ≠ ts.map (Term.constant θ) := by
  induction ss generalizing b ts with
  | nil =>
    cases ts with
    | nil => cases hm
    | cons t ts => simp
  | cons s ss ih =>
    cases ts with
    | nil => simp
    | cons t ts =>
      simp only [List.all_cons, Bool.and_eq_true] at hs ht
      simp only [unifyAll] at hm
      rw [List.map_cons, List.map_cons, ne_eq, List.cons.injEq, not_and]
      intro heq
      cases hb₁ : b.matchFlat s t with
      | none => exact (not_equal_of_matchFlat h hs.1 ht.1 hb₁ hb heq).elim
      | some b₁ =>
        rw [hb₁] at hm
        exact ih (h.matchFlat hs.1 ht.1 hb₁) hs.2 ht.2 hm ((admits_matchFlat h hb₁).mpr ⟨hb, heq⟩)

def complete (b : Bindings) (θ : Valuation) : Valuation := fun v => (b.walk (.var v)).constant θ

theorem admits_complete (h : b.Tidy) (θ : Valuation) : b.Admits (b.complete θ) := by
  intro v t hv
  have ht := h.flat v t hv
  rw [complete, walk_of_find? h.forward hv]
  cases t with
  | var w => rfl
  | atom a => rw [walk_nonvar b (by simp)]; rfl
  | number x => rw [walk_nonvar b (by simp)]; rfl
  | compound f as => cases ht

def Fixes (b : Bindings) (v : Var) : Prop := ∃ c, ∀ θ, b.Admits θ → θ v = c

theorem Fixes.walk (h : b.Tidy) {v : Var} (hv : b.Fixes v) (hb : b.Admits θ) :
    b.walk (.var v) = (θ v).toTerm := by
  obtain ⟨c, hc⟩ := hv
  have hflat : (b.walk (.var v)).isFlat := h.walk rfl
  have hval : (b.walk (.var v)).constant θ = θ v := hb.walk _
  cases hw : b.walk (.var v) with
  | compound f as => rw [hw] at hflat; cases hflat
  | atom a => rw [hw] at hval; rw [← hval]; rfl
  | number x => rw [hw] at hval; rw [← hval]; rfl
  | var w =>
    -- two values for the variable at the end of the walk give two for the one it started from
    have hvalue : ∀ d : Constant, d = c := by
      intro d
      have hd := hc (b.complete fun _ => d) (admits_complete h _)
      rw [complete, hw] at hd
      exact hd
    have hdiff := (hvalue (.atom "a")).trans (hvalue (.atom "b")).symm
    simp at hdiff

/-- Bindings that say nothing about some variables: these may have any values. -/
def Ignores (b : Bindings) (S : Set Var) : Prop :=
  ∀ θ θ' : Valuation, (∀ v, v ∉ S → θ' v = θ v) → b.Admits θ → b.Admits θ'

theorem ignores_empty (S : Set Var) : empty.Ignores S := fun _ θ' _ _ => admits_empty θ'

theorem Ignores.mono {S' : Set Var} (h : b.Ignores S) (hs : S' ⊆ S) : b.Ignores S' :=
  fun θ θ' hθ => h θ θ' fun v hv => hθ v fun hv' => hv (hs hv')

/-- Bindings made equal on some terms say nothing about variables that are not in the terms. -/
theorem Ignores.of_admits (h : b.Ignores S)
    (hb : ∀ θ, b'.Admits θ ↔ b.Admits θ ∧ ss.map (Term.constant θ) = ts.map (Term.constant θ))
    (hs : ∀ v ∈ S, v ∉ Term.occurrencesList ss ∧ v ∉ Term.occurrencesList ts) : b'.Ignores S := by
  intro θ θ' hθ hadmits
  obtain ⟨hadmits, heq⟩ := (hb θ).mp hadmits
  refine (hb θ').mpr ⟨h θ θ' hθ hadmits, ?_⟩
  rw [Term.map_constant_congr fun v hv => hθ v fun hvS => (hs v hvS).1 hv,
    Term.map_constant_congr fun v hv => hθ v fun hvS => (hs v hvS).2 hv]
  exact heq

end Bindings

end GraphRules
