import GraphRules.Proofs.Marks

/-! Bindings without compound terms. Scripts have no functions, so variables are only ever bound to
constants and to other variables, and unification does not depend on the depth it is allowed. -/
namespace GraphRules

namespace Term

def isFlat : Term → Bool
  | .compound _ _ => false
  | _ => true

def isShallow (t : Term) : Bool := t.args.all isFlat

theorem isFlat_rename (t : Term) (m : Nat) : (t.rename m).isFlat = t.isFlat := by
  cases t <;> rfl

theorem renameList_eq_map (m : Nat) (ts : List Term) : renameList m ts = ts.map (rename m) := by
  induction ts with
  | nil => rfl
  | cons t ts ih => rw [renameList, ih, List.map_cons]

theorem all_isFlat_renameList (m : Nat) (ts : List Term) :
    (renameList m ts).all isFlat = ts.all isFlat := by
  rw [renameList_eq_map, List.all_map]
  exact congrArg ts.all (funext fun t => isFlat_rename t m)

theorem apply_rename (m : Nat) (p : String) (args : List Term) :
    (apply p args).rename m = .apply p (renameList m args) := by
  cases args <;> rfl

theorem signature_apply (p : String) (args : List Term) :
    (apply p args).signature? = some ⟨p, args.length⟩ := by
  cases args <;> rfl

theorem args_apply (p : String) (args : List Term) : (apply p args).args = args := by
  cases args <;> rfl

theorem occurrences_apply (p : String) (args : List Term) :
    (apply p args).occurrences = occurrencesList args := by
  cases args <;> rfl

theorem isShallow_of_isFlat {t : Term} (h : t.isFlat) : t.isShallow := by
  cases t with
  | compound f as => cases h
  | atom a => rfl
  | number x => rfl
  | var v => rfl

end Term

namespace Bindings

/-- Bindings of variables to constants and to other variables, in chains that come to an end. -/
structure Tidy (b : Bindings) : Prop where
  forward : b.Forward
  flat : ∀ v t, b.find? v = some t → t.isFlat

variable {b b' : Bindings} {s t : Term} {ss ts : List Term}

theorem tidy_empty : empty.Tidy :=
  ⟨forward_empty, fun v t h => by simp [find?_eq_lookup, empty] at h⟩

theorem Tidy.walkSteps (h : b.Tidy) (ht : t.isFlat) (n : Nat) : (b.walkSteps n t).isFlat := by
  induction n generalizing t with
  | zero => cases t <;> exact ht
  | succ n ih =>
    cases t with
    | var v =>
      simp only [Bindings.walkSteps]
      cases hv : b.find? v with
      | none => rfl
      | some u => exact ih (h.flat v u hv)
    | atom a => rfl
    | number x => rfl
    | compound f as => cases ht

theorem Tidy.walk (h : b.Tidy) (ht : t.isFlat) : (b.walk t).isFlat := h.walkSteps ht _

def matchFlat (b : Bindings) (s t : Term) : Option Bindings :=
  if b.walk s = b.walk t then some b
  else
    match b.walk s, b.walk t with
    | .var v, t => some (b.bind v t)
    | s, .var v => some (b.bind v s)
    | _, _ => none

theorem unifyDepth_of_flat (h : b.Tidy) (hs : s.isFlat) (ht : t.isFlat) (n : Nat) :
    unifyDepth (n + 1) b s t = b.matchFlat s t := by
  have hs' := h.walk hs
  have ht' := h.walk ht
  rw [unifyDepth_succ, matchFlat]
  split
  · rfl
  · generalize b.walk s = s' at hs'
    generalize b.walk t = t' at ht'
    cases s' with
    | compound f as => cases hs'
    | var v => rfl
    | atom a => cases t' <;> rfl
    | number x => cases t' <;> rfl

theorem matchFlat_cases (b : Bindings) (s t : Term) :
    (b.walk s = b.walk t ∧ b.matchFlat s t = some b) ∨
      (∃ v u, (b.walk s = .var v ∧ b.walk t = u ∨ b.walk t = .var v ∧ b.walk s = u) ∧ u ≠ .var v ∧
        b.matchFlat s t = some (b.bind v u)) ∨
      (b.walk s ≠ b.walk t ∧ (∀ v, b.walk s ≠ .var v) ∧ (∀ v, b.walk t ≠ .var v) ∧
        b.matchFlat s t = none) := by
  unfold matchFlat
  generalize b.walk s = s'
  generalize b.walk t = t'
  by_cases heq : s' = t'
  · exact .inl ⟨heq, if_pos heq⟩
  · rw [if_neg heq]
    by_cases hs : ∃ v, s' = .var v
    · obtain ⟨v, rfl⟩ := hs
      exact .inr (.inl ⟨v, t', .inl ⟨rfl, rfl⟩, fun e => heq e.symm, rfl⟩)
    · by_cases ht : ∃ v, t' = .var v
      · obtain ⟨v, rfl⟩ := ht
        refine .inr (.inl ⟨v, s', .inr ⟨rfl, rfl⟩, heq, ?_⟩)
        cases s' with
        | var w => exact (hs ⟨w, rfl⟩).elim
        | atom a => rfl
        | number x => rfl
        | compound f as => rfl
      · refine .inr (.inr ⟨heq, fun v e => hs ⟨v, e⟩, fun v e => ht ⟨v, e⟩, ?_⟩)
        cases s' with
        | var w => exact (hs ⟨w, rfl⟩).elim
        | atom a => cases t' with | var w => exact (ht ⟨w, rfl⟩).elim | _ => rfl
        | number x => cases t' with | var w => exact (ht ⟨w, rfl⟩).elim | _ => rfl
        | compound f as => cases t' with | var w => exact (ht ⟨w, rfl⟩).elim | _ => rfl

theorem Tidy.bind (h : b.Tidy) {v : Var} {u : Term} (hv : b.find? v = none) (hu : u.isFlat)
    (hne : u ≠ .var v) (hw : ∀ w, u = .var w → b.find? w = none) : (b.bind v u).Tidy := by
  refine ⟨h.forward.bind hv hne hw, fun w t hw => ?_⟩
  rw [find?_bind hv] at hw
  split at hw
  · cases hw
    exact hu
  · exact h.flat w t hw

theorem Tidy.matchFlat (h : b.Tidy) (hs : s.isFlat) (ht : t.isFlat)
    (hm : b.matchFlat s t = some b') : b'.Tidy := by
  obtain ⟨_, h'⟩ | ⟨v, u, hw, hne, h'⟩ | ⟨_, _, _, h'⟩ := matchFlat_cases b s t
  · rw [h'] at hm
    cases hm
    exact h
  · rw [h'] at hm
    cases hm
    obtain ⟨hv, hu⟩ | ⟨hv, hu⟩ := hw
    · exact h.bind (find?_walk h.forward hv) (hu ▸ h.walk ht) hne fun w e =>
        find?_walk h.forward (hu.trans e)
    · exact h.bind (find?_walk h.forward hv) (hu ▸ h.walk hs) hne fun w e =>
        find?_walk h.forward (hu.trans e)
  · rw [h'] at hm
    cases hm

def Extends (b c : Bindings) : Prop := ∀ v t, b.find? v = some t → c.find? v = some t

theorem Extends.refl (b : Bindings) : b.Extends b := fun _ _ => id

theorem Extends.trans {c d : Bindings} (h : b.Extends c) (h' : c.Extends d) : b.Extends d :=
  fun v t ht => h' v t (h v t ht)

theorem extends_bind {v : Var} (hv : b.find? v = none) (u : Term) : b.Extends (b.bind v u) := by
  intro w t hw
  have hne : w ≠ v := fun e => by rw [e, hv] at hw; cases hw
  rw [find?_bind hv, if_neg hne, hw]

theorem extends_matchFlat (h : b.Tidy) (hm : b.matchFlat s t = some b') : b.Extends b' := by
  obtain ⟨_, h'⟩ | ⟨v, u, hw, _, h'⟩ | ⟨_, _, _, h'⟩ := matchFlat_cases b s t
  · rw [h'] at hm
    cases hm
    exact .refl b
  · rw [h'] at hm
    cases hm
    obtain ⟨hw, _⟩ | ⟨hw, _⟩ := hw
    · exact extends_bind (find?_walk h.forward hw) u
    · exact extends_bind (find?_walk h.forward hw) u
  · rw [h'] at hm
    cases hm

theorem Tidy.unifyAll (h : b.Tidy) (hs : ss.all Term.isFlat) (ht : ts.all Term.isFlat)
    (hm : unifyAll Bindings.matchFlat b ss ts = some b') : b'.Tidy ∧ b.Extends b' := by
  induction ss generalizing b ts with
  | nil =>
    cases ts with
    | nil => cases hm; exact ⟨h, .refl _⟩
    | cons t ts => cases hm
  | cons s ss ih =>
    cases ts with
    | nil => cases hm
    | cons t ts =>
      simp only [List.all_cons, Bool.and_eq_true] at hs ht
      simp only [Bindings.unifyAll] at hm
      cases hb : b.matchFlat s t with
      | none => rw [hb] at hm; cases hm
      | some b₁ =>
        rw [hb] at hm
        have hrest := ih (h.matchFlat hs.1 ht.1 hb) hs.2 ht.2 hm
        exact ⟨hrest.1, (extends_matchFlat h hb).trans hrest.2⟩

theorem unifyAll_of_flat (n : Nat) (h : b.Tidy) (hs : ss.all Term.isFlat)
    (ht : ts.all Term.isFlat) :
    unifyAll (unifyDepth (n + 1)) b ss ts = unifyAll matchFlat b ss ts := by
  induction ss generalizing b ts with
  | nil => cases ts <;> rfl
  | cons s ss ih =>
    cases ts with
    | nil => rfl
    | cons t ts =>
      simp only [List.all_cons, Bool.and_eq_true] at hs ht
      simp only [unifyAll, unifyDepth_of_flat h hs.1 ht.1]
      cases hm : b.matchFlat s t with
      | none => rfl
      | some b' => exact ih (h.matchFlat hs.1 ht.1 hm) hs.2 ht.2

theorem Tidy.walk_isShallow (h : b.Tidy) (ht : t.isShallow) : (b.walk t).isShallow := by
  cases t with
  | compound f as => rw [walk_nonvar b (by simp)]; exact ht
  | atom a => exact Term.isShallow_of_isFlat (h.walk rfl)
  | number x => exact Term.isShallow_of_isFlat (h.walk rfl)
  | var v => exact Term.isShallow_of_isFlat (h.walk rfl)

/-- Unification of shallow terms goes two levels deep. -/
theorem unifyDepth_of_shallow (h : b.Tidy) (hs : s.isShallow) (ht : t.isShallow) (n : Nat) :
    unifyDepth (n + 2) b s t = unifyDepth 2 b s t := by
  have hs' := h.walk_isShallow hs
  have ht' := h.walk_isShallow ht
  rw [unifyDepth_succ, unifyDepth_succ 1]
  generalize b.walk s = s' at hs'
  generalize b.walk t = t' at ht'
  split
  · rfl
  · cases s' with
    | compound f as =>
      cases t' with
      | compound g bs =>
        replace hs' : as.all Term.isFlat := hs'
        replace ht' : bs.all Term.isFlat := ht'
        dsimp only
        rw [unifyAll_of_flat n h hs' ht', unifyAll_of_flat 0 h hs' ht']
      | atom a => rfl
      | number x => rfl
      | var v => rfl
    | atom a => cases t' <;> rfl
    | number x => cases t' <;> rfl
    | var v => rfl

theorem unify?_of_shallow (h : b.Tidy) (hs : s.isShallow) (ht : t.isShallow) :
    b.unify? s t = unifyDepth 2 b s t := by
  rw [unify?_eq]
  have := s.size_pos
  have := t.size_pos
  obtain ⟨n, hn⟩ : ∃ n, b.weight + s.size + t.size = n + 2 :=
    ⟨b.weight + s.size + t.size - 2, by omega⟩
  rw [hn]
  exact unifyDepth_of_shallow h hs ht n

theorem unify?_of_flat (h : b.Tidy) (hs : s.isFlat) (ht : t.isFlat) :
    b.unify? s t = b.matchFlat s t := by
  rw [unify?_of_shallow h (Term.isShallow_of_isFlat hs) (Term.isShallow_of_isFlat ht)]
  exact unifyDepth_of_flat h hs ht 1

theorem unifyAll_matchFlat_self (b : Bindings) (ts : List Term) :
    unifyAll matchFlat b ts ts = some b := by
  induction ts with
  | nil => rfl
  | cons t ts ih => simp [unifyAll, matchFlat, ih]

theorem unify?_apply (h : b.Tidy) (p q : String) (hs : ss.all Term.isFlat)
    (ht : ts.all Term.isFlat) :
    b.unify? (.apply p ss) (.apply q ts) = if p = q then unifyAll matchFlat b ss ts else none := by
  have hshallow : ∀ (p : String) {us : List Term}, us.all Term.isFlat →
      (Term.apply p us).isShallow := by
    intro p us hu
    cases us with
    | nil => rfl
    | cons u us => exact hu
  have hvar : ∀ (p : String) (us : List Term) (v : Var), Term.apply p us ≠ .var v := by
    intro p us v
    cases us <;> simp [Term.apply]
  rw [unify?_of_shallow h (hshallow p hs) (hshallow q ht), unifyDepth_succ,
    walk_nonvar b (hvar p ss), walk_nonvar b (hvar q ts)]
  cases ss with
  | nil =>
    cases ts with
    | nil => by_cases hpq : p = q <;> simp [Term.apply, unifyAll, hpq]
    | cons t ts => simp [Term.apply, unifyAll]
  | cons s ss =>
    cases ts with
    | nil => simp [Term.apply, unifyAll]
    | cons t ts =>
      by_cases heq : Term.compound p (s :: ss) = .compound q (t :: ts)
      · simp only [Term.apply, heq, if_true]
        obtain ⟨rfl, hst⟩ : p = q ∧ s :: ss = t :: ts := by simpa using heq
        rw [if_pos rfl, hst, unifyAll_matchFlat_self]
      · simp only [Term.apply, heq, if_false]
        rw [unifyAll_of_flat 0 h hs ht]

theorem resolve_of_flat (h : b.Tidy) (ht : t.isFlat) : b.resolve t = b.walk t := by
  have hflat := h.walk ht
  have hpos := t.size_pos
  unfold resolve
  rw [show b.weight + t.size = b.weight + t.size - 1 + 1 by omega, resolveDepth]
  cases hw : b.walk t with
  | compound f as => rw [hw] at hflat; cases hflat
  | atom a => rfl
  | number x => rfl
  | var w => rfl

end Bindings

end GraphRules
