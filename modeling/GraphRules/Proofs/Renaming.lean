import GraphRules.Proofs.Flat
import Mathlib.Data.List.Forall2
import Mathlib.Logic.Relator

/-! Terms and bindings up to a renaming of variables. A renaming is a relation between variables
that pairs each variable with one other at most. Unification looks at variables only to tell them
apart, so it does the same to terms and bindings that a renaming relates. -/
namespace GraphRules

variable {α β : Type}

theorem rel_none {r : α → β → Prop} {y : Option β} (h : Option.Rel r none y) : y = none := by
  cases h
  rfl

theorem rel_some {r : α → β → Prop} {a : α} {y : Option β} (h : Option.Rel r (some a) y) :
    ∃ b, y = some b ∧ r a b := by
  cases h with
  | some h => exact ⟨_, rfl, h⟩

theorem exists_of_mem_left {R : α → β → Prop} {as : List α} {bs : List β} (h : List.Forall₂ R as bs)
    {a : α} (ha : a ∈ as) : ∃ b ∈ bs, R a b := by
  induction h with
  | nil => cases ha
  | @cons a' b as bs hab _ ih =>
    rcases List.mem_cons.mp ha with rfl | ha
    · exact ⟨b, by simp, hab⟩
    · obtain ⟨b', hb', hr⟩ := ih ha
      exact ⟨b', by simp [hb'], hr⟩

mutual

theorem Term.occurrences_rename (m : Nat) :
    ∀ t : Term, (t.rename m).occurrences = t.occurrences.map fun v => { v with scope := m }
  | .atom _ => rfl
  | .number _ => rfl
  | .var _ => rfl
  | .compound _ as => Term.occurrencesList_rename m as

theorem Term.occurrencesList_rename (m : Nat) :
    ∀ ts : List Term, Term.occurrencesList (Term.renameList m ts) =
      (Term.occurrencesList ts).map fun v => { v with scope := m }
  | [] => rfl
  | t :: ts => by
    rw [Term.renameList, Term.occurrencesList, Term.occurrencesList, Term.occurrences_rename m t,
      Term.occurrencesList_rename m ts, List.map_append]

end

def Clause.occurrences (c : Clause) : List Var := c.head.occurrences ++ Term.occurrencesList c.body

theorem Clause.occurrences_rename (c : Clause) (n : Nat) :
    (c.rename n).occurrences = c.occurrences.map fun v => { v with scope := n } := by
  rw [occurrences, occurrences, rename, Term.occurrences_rename,
    Term.occurrencesList_rename, List.map_append]

namespace Term

mutual

def Rel (R : Var → Var → Prop) : Term → Term → Prop
  | .atom a, .atom b => a = b
  | .number a, .number b => a = b
  | .var v, .var w => R v w
  | .compound f as, .compound g bs => f = g ∧ RelAll R as bs
  | _, _ => False

def RelAll (R : Var → Var → Prop) : List Term → List Term → Prop
  | [], [] => True
  | a :: as, b :: bs => a.Rel R b ∧ RelAll R as bs
  | _, _ => False

end

variable {R S : Var → Var → Prop} {as bs : List Term} {t : Term}

theorem relAll_iff : RelAll R as bs ↔ List.Forall₂ (Rel R) as bs := by
  induction as generalizing bs with
  | nil => cases bs <;> simp [RelAll]
  | cons a as ih => cases bs <;> simp [RelAll, ih]

mutual

theorem Rel.mono (h : ∀ v w, R v w → S v w) : ∀ {s t : Term}, s.Rel R t → s.Rel S t
  | .atom _, .atom _, hst => hst
  | .number _, .number _, hst => hst
  | .var v, .var w, hst => h v w hst
  | .compound _ _, .compound _ _, hst => ⟨hst.1, RelAll.mono h hst.2⟩

theorem RelAll.mono (h : ∀ v w, R v w → S v w) :
    ∀ {as bs : List Term}, RelAll R as bs → RelAll S as bs
  | [], [], _ => trivial
  | _ :: _, _ :: _, hst => ⟨Rel.mono h hst.1, RelAll.mono h hst.2⟩

end

mutual

/-- A renaming keeps apart what it finds apart. -/
theorem Rel.eq_iff (hR : Relator.BiUnique R) :
    ∀ {s s' t t' : Term}, s.Rel R s' → t.Rel R t' → (s = t ↔ s' = t')
  | .atom _, .atom _, .atom _, .atom _, hs, ht => by cases hs; cases ht; simp
  | .atom _, .atom _, .number _, .number _, _, _ => by simp
  | .atom _, .atom _, .var _, .var _, _, _ => by simp
  | .atom _, .atom _, .compound _ _, .compound _ _, _, _ => by simp
  | .number _, .number _, .atom _, .atom _, _, _ => by simp
  | .number _, .number _, .number _, .number _, hs, ht => by cases hs; cases ht; simp
  | .number _, .number _, .var _, .var _, _, _ => by simp
  | .number _, .number _, .compound _ _, .compound _ _, _, _ => by simp
  | .var _, .var _, .atom _, .atom _, _, _ => by simp
  | .var _, .var _, .number _, .number _, _, _ => by simp
  | .var v, .var v', .var w, .var w', hs, ht => by
    have hv : R v v' := hs
    have hw : R w w' := ht
    simp only [var.injEq]
    constructor
    · intro e
      subst e
      exact hR.2 hv hw
    · intro e
      subst e
      exact hR.1 hv hw
  | .var _, .var _, .compound _ _, .compound _ _, _, _ => by simp
  | .compound _ _, .compound _ _, .atom _, .atom _, _, _ => by simp
  | .compound _ _, .compound _ _, .number _, .number _, _, _ => by simp
  | .compound _ _, .compound _ _, .var _, .var _, _, _ => by simp
  | .compound f as, .compound f' as', .compound g bs, .compound g' bs', hs, ht => by
    obtain ⟨rfl, hs⟩ := hs
    obtain ⟨rfl, ht⟩ := ht
    simp [RelAll.eq_iff hR hs ht]

theorem RelAll.eq_iff (hR : Relator.BiUnique R) :
    ∀ {as as' bs bs' : List Term}, RelAll R as as' → RelAll R bs bs' → (as = bs ↔ as' = bs')
  | [], [], [], [], _, _ => by simp
  | [], [], _ :: _, _ :: _, _, _ => by simp
  | _ :: _, _ :: _, [], [], _, _ => by simp
  | _ :: _, _ :: _, _ :: _, _ :: _, hs, ht => by
    simp [Rel.eq_iff hR hs.1 ht.1, RelAll.eq_iff hR hs.2 ht.2]

end

mutual

theorem rel_rename {m n : Nat} (h : ∀ name, R ⟨name, m⟩ ⟨name, n⟩) :
    ∀ t : Term, (t.rename m).Rel R (t.rename n)
  | .atom _ => rfl
  | .number _ => rfl
  | .var v => h v.name
  | .compound _ as => ⟨rfl, relAll_renameList h as⟩

theorem relAll_renameList {m n : Nat} (h : ∀ name, R ⟨name, m⟩ ⟨name, n⟩) :
    ∀ as : List Term, RelAll R (renameList m as) (renameList n as)
  | [] => trivial
  | a :: as => ⟨rel_rename h a, relAll_renameList h as⟩

end

mutual

theorem rel_self : ∀ {t : Term}, (∀ v ∈ t.occurrences, R v v) → t.Rel R t
  | .atom _, _ => rfl
  | .number _, _ => rfl
  | .var v, h => h v (by simp [occurrences])
  | .compound _ _, h => ⟨rfl, relAll_self h⟩

theorem relAll_self : ∀ {as : List Term}, (∀ v ∈ occurrencesList as, R v v) → RelAll R as as
  | [], _ => trivial
  | _ :: _, h =>
    ⟨rel_self fun v hv => h v (List.mem_append_left _ hv),
      relAll_self fun v hv => h v (List.mem_append_right _ hv)⟩

end

theorem rel_atom {a : String} : (Term.atom a).Rel R t ↔ t = .atom a := by
  cases t <;> simp [Rel, eq_comm]

theorem rel_number {x : Number} : (Term.number x).Rel R t ↔ t = .number x := by
  cases t <;> simp [Rel, eq_comm]

theorem rel_var {v : Var} : (Term.var v).Rel R t ↔ ∃ w, t = .var w ∧ R v w := by
  cases t <;> simp [Rel]

theorem rel_compound {f : String} :
    (Term.compound f as).Rel R t ↔ ∃ bs, t = .compound f bs ∧ RelAll R as bs := by
  cases t with
  | compound g bs =>
    simp only [Rel, compound.injEq]
    constructor
    · rintro ⟨rfl, h⟩
      exact ⟨bs, ⟨rfl, rfl⟩, h⟩
    · rintro ⟨_, ⟨rfl, rfl⟩, h⟩
      exact ⟨rfl, h⟩
  | atom _ => simp [Rel]
  | number _ => simp [Rel]
  | var _ => simp [Rel]

theorem Rel.isFlat {s : Term} (h : s.Rel R t) : t.isFlat = s.isFlat := by
  cases s <;> cases t <;> first | rfl | exact h.elim

theorem RelAll.all_isFlat (h : RelAll R as bs) : bs.all Term.isFlat = as.all Term.isFlat := by
  induction as generalizing bs with
  | nil => cases bs with | nil => rfl | cons _ _ => exact h.elim
  | cons a as ih =>
    cases bs with
    | nil => exact h.elim
    | cons b bs => rw [List.all_cons, List.all_cons, h.1.isFlat, ih h.2]

theorem rel_apply {p : String} (h : (Term.apply p as).Rel R t) :
    ∃ bs, t = .apply p bs ∧ RelAll R as bs := by
  cases as with
  | nil => exact ⟨[], rel_atom.mp h, trivial⟩
  | cons a as =>
    obtain ⟨bs, rfl, hbs⟩ := rel_compound.mp h
    cases bs with
    | nil => exact hbs.elim
    | cons b bs => exact ⟨b :: bs, rfl, hbs⟩

end Term

namespace Bindings

variable {R : Var → Var → Prop} {b b' : Bindings}

/-- Walks lead to related terms when related variables are bound to related terms. -/
theorem rel_walkSteps (hfind : ∀ v w, R v w → Option.Rel (Term.Rel R) (b.find? v) (b'.find? w))
    {s s' : Term} (hs : s.Rel R s') (k : Nat) : (b.walkSteps k s).Rel R (b'.walkSteps k s') := by
  induction k generalizing s s' with
  | zero => simpa [walkSteps] using hs
  | succ k ih =>
    cases s with
    | var v =>
      obtain ⟨w, rfl, hvw⟩ := Term.rel_var.mp hs
      have hf := hfind v w hvw
      simp only [walkSteps]
      cases hv : b.find? v with
      | none =>
        rw [hv] at hf
        rw [rel_none hf]
        exact hvw
      | some t =>
        rw [hv] at hf
        obtain ⟨t', hw, ht⟩ := rel_some hf
        rw [hw]
        exact ih ht
    | atom a => rw [Term.rel_atom.mp hs]; exact rfl
    | number x => rw [Term.rel_number.mp hs]; exact rfl
    | compound f as => obtain ⟨as', rfl, has⟩ := Term.rel_compound.mp hs; exact ⟨rfl, has⟩

theorem rel_unifyAll {Q : Bindings → Bindings → Prop}
    {step step' : Bindings → Term → Term → Option Bindings} {ss ss' ts ts' : List Term}
    (hstep : ∀ {b b' : Bindings} {s s' t t' : Term}, Q b b' → s ∈ ss → t ∈ ts → s.Rel R s' →
      t.Rel R t' → Option.Rel Q (step b s t) (step' b' s' t')) (h : Q b b')
    (hs : Term.RelAll R ss ss') (ht : Term.RelAll R ts ts') :
    Option.Rel Q (unifyAll step b ss ts) (unifyAll step' b' ss' ts') := by
  induction ss generalizing b b' ss' ts ts' with
  | nil =>
    cases ss' with
    | cons _ _ => exact hs.elim
    | nil =>
      cases ts with
      | nil =>
        cases ts' with
        | nil => exact .some h
        | cons _ _ => exact ht.elim
      | cons _ _ =>
        cases ts' with
        | nil => exact ht.elim
        | cons _ _ => exact .none
  | cons s ss ih =>
    cases ss' with
    | nil => exact hs.elim
    | cons s' ss' =>
      cases ts with
      | nil =>
        cases ts' with
        | nil => exact .none
        | cons _ _ => exact ht.elim
      | cons t ts =>
        cases ts' with
        | nil => exact ht.elim
        | cons t' ts' =>
          have hfirst := hstep h (by simp) (by simp) hs.1 ht.1
          simp only [unifyAll]
          cases hb : step b s t with
          | none =>
            rw [hb] at hfirst
            rw [rel_none hfirst]
            exact .none
          | some b₁ =>
            rw [hb] at hfirst
            obtain ⟨b₂, hb', hl⟩ := rel_some hfirst
            rw [hb']
            exact ih (fun h hs ht => hstep h (by simp [hs]) (by simp [ht])) hl hs.2 ht.2

end Bindings

/-- Bindings that a renaming relates: related variables are bound to related terms. Variables that
are not related to any may be bound on either side. Scopes past `m` on the left and past `n` on the
right are not in use. -/
structure Linked (R : Var → Var → Prop) (m n : Nat) (b b' : Bindings) : Prop where
  unique : Relator.BiUnique R
  scopes : ∀ v w, R v w → v.scope ≤ m ∧ w.scope ≤ n
  left : b.Tidy
  right : b'.Tidy
  find : ∀ v w, R v w → Option.Rel (Term.Rel R) (b.find? v) (b'.find? w)
  keys : ∀ v, b.find? v ≠ none → v.scope ≤ m
  keys' : ∀ w, b'.find? w ≠ none → w.scope ≤ n

namespace Linked

variable {R : Var → Var → Prop} {m n : Nat} {b b' : Bindings} {v w : Var} {s s' t t' : Term}
  {ss ss' ts ts' : List Term}

theorem find_none (h : Linked R m n b b') (hvw : R v w) (hv : b.find? v = none) :
    b'.find? w = none := by
  have hf := h.find v w hvw
  rw [hv] at hf
  exact rel_none hf

theorem walkSteps (h : Linked R m n b b') (hs : s.Rel R s') (k : Nat) :
    (b.walkSteps k s).Rel R (b'.walkSteps k s') := Bindings.rel_walkSteps h.find hs k

theorem walk (h : Linked R m n b b') (hs : s.Rel R s') : (b.walk s).Rel R (b'.walk s') := by
  have hw := h.walkSteps hs (b.trail.length + b'.trail.length)
  rwa [Bindings.walkSteps_eq_follow h.left.forward (by omega),
    Bindings.walkSteps_eq_follow h.right.forward (by omega),
    ← Bindings.walk_eq_follow h.left.forward, ← Bindings.walk_eq_follow h.right.forward] at hw

theorem bind (h : Linked R m n b b') (hvw : R v w) (hv : b.find? v = none) (ht : t.Rel R t')
    (hflat : t.isFlat) (hne : t ≠ .var v) (hend : ∀ x, t = .var x → b.find? x = none) :
    Linked R m n (b.bind v t) (b'.bind w t') := by
  have hw := h.find_none hvw hv
  have hvars : (Term.var v).Rel R (.var w) := hvw
  have hne' : t' ≠ .var w := fun e => hne ((ht.eq_iff h.unique hvars).mpr e)
  have hend' : ∀ x, t' = .var x → b'.find? x = none := by
    intro x hx
    subst hx
    cases t with
    | var y => exact h.find_none ht (hend y rfl)
    | atom a => exact ht.elim
    | number a => exact ht.elim
    | compound f as => exact ht.elim
  refine ⟨h.unique, h.scopes, h.left.bind hv hflat hne hend,
    h.right.bind hw (ht.isFlat.trans hflat) hne' hend', ?_, ?_, ?_⟩
  · intro x y hxy
    rw [Bindings.find?_bind hv, Bindings.find?_bind hw]
    by_cases hx : x = v
    · have hy : y = w := h.unique.2 (hx ▸ hxy) hvw
      rw [if_pos hx, if_pos hy]
      exact .some ht
    · have hy : y ≠ w := fun e => hx (h.unique.1 (e ▸ hxy) hvw)
      rw [if_neg hx, if_neg hy]
      exact h.find x y hxy
  · intro x hx
    rw [Bindings.find?_bind hv] at hx
    by_cases hxv : x = v
    · exact hxv ▸ (h.scopes v w hvw).1
    · exact h.keys x (by rwa [if_neg hxv] at hx)
  · intro x hx
    rw [Bindings.find?_bind hw] at hx
    by_cases hxw : x = w
    · exact hxw ▸ (h.scopes v w hvw).2
    · exact h.keys' x (by rwa [if_neg hxw] at hx)

theorem matchFlat (h : Linked R m n b b') (hs : s.Rel R s') (ht : t.Rel R t') (hsf : s.isFlat)
    (htf : t.isFlat) : Option.Rel (Linked R m n) (b.matchFlat s t) (b'.matchFlat s' t') := by
  have hsw := h.walk hs
  have htw := h.walk ht
  have hends : ∀ {u : Term} (x : Var), b.walk u = .var x → b.find? x = none :=
    fun x hx => Bindings.find?_walk h.left.forward hx
  unfold Bindings.matchFlat
  by_cases heq : b.walk s = b.walk t
  · rw [if_pos heq, if_pos ((hsw.eq_iff h.unique htw).mp heq)]
    exact .some h
  · rw [if_neg heq, if_neg fun e => heq ((hsw.eq_iff h.unique htw).mpr e)]
    have hs0 := @hends s
    have ht0 := @hends t
    have hsf' := h.left.walk hsf
    have htf' := h.left.walk htf
    revert hsw htw heq hs0 ht0 hsf' htf'
    generalize b.walk s = u
    generalize b'.walk s' = u'
    generalize b.walk t = w
    generalize b'.walk t' = w'
    intro hsw htw heq hs0 ht0 hsf' htf'
    cases u with
    | var x =>
      obtain ⟨x', rfl, hx⟩ := Term.rel_var.mp hsw
      exact .some (h.bind hx (hs0 x rfl) htw htf' (fun e => heq e.symm) ht0)
    | atom a =>
      obtain rfl := Term.rel_atom.mp hsw
      cases w with
      | var y =>
        obtain ⟨y', rfl, hy⟩ := Term.rel_var.mp htw
        exact .some (h.bind hy (ht0 y rfl) hsw rfl nofun nofun)
      | atom c => obtain rfl := Term.rel_atom.mp htw; exact .none
      | number c => obtain rfl := Term.rel_number.mp htw; exact .none
      | compound g bs => cases htf'
    | number a =>
      obtain rfl := Term.rel_number.mp hsw
      cases w with
      | var y =>
        obtain ⟨y', rfl, hy⟩ := Term.rel_var.mp htw
        exact .some (h.bind hy (ht0 y rfl) hsw rfl nofun nofun)
      | atom c => obtain rfl := Term.rel_atom.mp htw; exact .none
      | number c => obtain rfl := Term.rel_number.mp htw; exact .none
      | compound g bs => cases htf'
    | compound f as => cases hsf'

theorem unifyAll (h : Linked R m n b b') (hs : Term.RelAll R ss ss') (ht : Term.RelAll R ts ts')
    (hsf : ss.all Term.isFlat) (htf : ts.all Term.isFlat) :
    Option.Rel (Linked R m n) (Bindings.unifyAll Bindings.matchFlat b ss ts)
      (Bindings.unifyAll Bindings.matchFlat b' ss' ts') := by
  refine Bindings.rel_unifyAll (fun h hsmem htmem hs ht => ?_) h hs ht
  exact h.matchFlat hs ht (List.all_eq_true.mp hsf _ hsmem) (List.all_eq_true.mp htf _ htmem)

theorem unify?_flat (h : Linked R m n b b') (hs : s.Rel R s') (ht : t.Rel R t') (hsf : s.isFlat)
    (htf : t.isFlat) : Option.Rel (Linked R m n) (b.unify? s t) (b'.unify? s' t') := by
  rw [Bindings.unify?_of_flat h.left hsf htf,
    Bindings.unify?_of_flat h.right (hs.isFlat.trans hsf) (ht.isFlat.trans htf)]
  exact h.matchFlat hs ht hsf htf

theorem unify?_apply (h : Linked R m n b b') (p q : String)
    (hs : Term.RelAll R ss ss') (ht : Term.RelAll R ts ts') (hsf : ss.all Term.isFlat)
    (htf : ts.all Term.isFlat) :
    Option.Rel (Linked R m n) (b.unify? (.apply p ss) (.apply q ts))
      (b'.unify? (.apply p ss') (.apply q ts')) := by
  rw [Bindings.unify?_apply h.left p q hsf htf,
    Bindings.unify?_apply h.right p q (hs.all_isFlat.trans hsf) (ht.all_isFlat.trans htf)]
  split
  · exact h.unifyAll hs ht hsf htf
  · exact .none

theorem resolve (h : Linked R m n b b') (hs : s.Rel R s') (hsf : s.isFlat) :
    (b.resolve s).Rel R (b'.resolve s') := by
  rw [Bindings.resolve_of_flat h.left hsf, Bindings.resolve_of_flat h.right (hs.isFlat.trans hsf)]
  exact h.walk hs

theorem resolveAll (h : Linked R m n b b') (hs : Term.RelAll R ss ss') (hsf : ss.all Term.isFlat) :
    Term.RelAll R (ss.map b.resolve) (ss'.map b'.resolve) := by
  induction ss generalizing ss' with
  | nil =>
    cases ss' with
    | nil => trivial
    | cons _ _ => exact hs.elim
  | cons s ss ih =>
    cases ss' with
    | nil => exact hs.elim
    | cons s' ss' =>
      rw [List.all_cons, Bool.and_eq_true] at hsf
      exact ⟨h.resolve hs.1 hsf.1, ih hs.2 hsf.2⟩

theorem mono (h : Linked R m n b b') {m' n' : Nat} (hm : m ≤ m') (hn : n ≤ n') :
    Linked R m' n' b b' where
  unique := h.unique
  scopes v w hvw := ⟨Nat.le_trans (h.scopes v w hvw).1 hm, Nat.le_trans (h.scopes v w hvw).2 hn⟩
  left := h.left
  right := h.right
  find := h.find
  keys v hv := Nat.le_trans (h.keys v hv) hm
  keys' w hw := Nat.le_trans (h.keys' w hw) hn

def fresh (R : Var → Var → Prop) (m n : Nat) (v w : Var) : Prop :=
  R v w ∨ v.name = w.name ∧ v.scope = m + 1 ∧ w.scope = n + 1

theorem fresh_of_rel (h : R v w) : fresh R m n v w := .inl h

theorem fresh_new (name : String) : fresh R m n ⟨name, m + 1⟩ ⟨name, n + 1⟩ := .inr ⟨rfl, rfl, rfl⟩

theorem biUnique_fresh (hR : Relator.BiUnique R)
    (hscopes : ∀ v w, R v w → v.scope ≤ m ∧ w.scope ≤ n) : Relator.BiUnique (fresh R m n) := by
  constructor
  · rintro v v' w (hv | ⟨hn, hv, hw⟩) (hv' | ⟨hn', hv', hw'⟩)
    · exact hR.1 hv hv'
    · have := (hscopes v w hv).2; omega
    · have := (hscopes v' w hv').2; omega
    · cases v; cases v'; simp_all
  · rintro v w w' (hv | ⟨hn, hv, hw⟩) (hv' | ⟨hn', hv', hw'⟩)
    · exact hR.2 hv hv'
    · have := (hscopes v w hv).1; omega
    · have := (hscopes v w' hv').1; omega
    · cases w; cases w'; simp_all

/-- The next scope on either side can be taken for a new copy of a clause. -/
theorem extend (h : Linked R m n b b') : Linked (fresh R m n) (m + 1) (n + 1) b b' where
  unique := biUnique_fresh h.unique h.scopes
  scopes v w hvw := by
    rcases hvw with hvw | ⟨_, hv, hw⟩
    · have := h.scopes v w hvw
      omega
    · omega
  left := h.left
  right := h.right
  find v w hvw := by
    rcases hvw with hvw | ⟨_, hv, hw⟩
    · have hf := h.find v w hvw
      cases hb : b.find? v with
      | none =>
        rw [h.find_none hvw hb]
        exact .none
      | some t =>
        rw [hb] at hf
        obtain ⟨t', hb', ht⟩ := rel_some hf
        rw [hb']
        exact .some (ht.mono fun _ _ => fresh_of_rel)
    · have hb : b.find? v = none := by
        by_contra hne
        have := h.keys v hne
        omega
      have hb' : b'.find? w = none := by
        by_contra hne
        have := h.keys' w hne
        omega
      rw [hb, hb']
      exact .none
  keys v hv := Nat.le_succ_of_le (h.keys v hv)
  keys' w hw := Nat.le_succ_of_le (h.keys' w hw)

theorem empty (hR : Relator.BiUnique R) (hs : ∀ v w, R v w → v.scope ≤ m ∧ w.scope ≤ n) :
    Linked R m n Bindings.empty Bindings.empty where
  unique := hR
  scopes := hs
  left := Bindings.tidy_empty
  right := Bindings.tidy_empty
  find v w _ := by simp only [Bindings.find?_eq_lookup]; exact .none
  keys v hv := by simp [Bindings.find?_eq_lookup, Bindings.empty] at hv
  keys' w hw := by simp [Bindings.find?_eq_lookup, Bindings.empty] at hw

end Linked

end GraphRules
