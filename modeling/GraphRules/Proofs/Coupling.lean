import GraphRules.Proofs.VariantAnswers

/-! Bindings that were made alike. Two searches may give out different scopes and still bind the
same variables in the same order to the same terms, up to a renaming. Then the bindings have the
same weight, so all that is done with them goes the same way to the last step, for terms of any
shape and with cycles or without. -/
namespace GraphRules

open Search

variable {R S : Var → Var → Prop}

namespace Term

mutual

theorem Rel.size_eq : ∀ {s t : Term}, s.Rel R t → t.size = s.size
  | .atom _, .atom _, _ => rfl
  | .number _, .number _, _ => rfl
  | .var _, .var _, _ => rfl
  | .compound _ _, .compound _ _, h => congrArg (1 + ·) (RelAll.sizes_eq h.2)

theorem RelAll.sizes_eq : ∀ {ss ts : List Term}, RelAll R ss ts → sizes ts = sizes ss
  | [], [], _ => rfl
  | _ :: _, _ :: _, h => congrArg₂ (· + ·) (Rel.size_eq h.1) (RelAll.sizes_eq h.2)

end

theorem Rel.args {s t : Term} (h : s.Rel R t) : RelAll R s.args t.args := by
  cases s with
  | compound f as => obtain ⟨bs, rfl, has⟩ := rel_compound.mp h; exact has
  | atom a => rw [rel_atom.mp h]; trivial
  | number x => rw [rel_number.mp h]; trivial
  | var v => obtain ⟨w, rfl, -⟩ := rel_var.mp h; trivial

end Term

def RelTerms (R : Var → Var → Prop) (p q : Term × Term) : Prop := p.1.Rel R q.1 ∧ p.2.Rel R q.2

def RelBinding (R : Var → Var → Prop) (p q : Var × Term) : Prop := R p.1 q.1 ∧ p.2.Rel R q.2

/-- Bindings made in the same order, of related variables to related terms. The renaming changes
only scopes, and none past `m` on the left and past `n` on the right are in use. -/
structure Coupled (R : Var → Var → Prop) (m n : Nat) (b b' : Bindings) : Prop where
  unique : Relator.BiUnique R
  names : ∀ v w, R v w → v.name = w.name
  scopes : ∀ v w, R v w → v.scope ≤ m ∧ w.scope ≤ n
  trails : List.Forall₂ (RelBinding R) b.trail b'.trail

namespace Coupled

variable {m n : Nat} {b b' : Bindings} {s s' t t' : Term}

theorem weight_eq (h : Coupled R m n b b') : b'.weight = b.weight := by
  have hall : Term.RelAll R (b.trail.map Prod.snd) (b'.trail.map Prod.snd) := by
    rw [Term.relAll_iff, List.forall₂_map_left_iff, List.forall₂_map_right_iff]
    exact h.trails.imp fun _ _ hp => hp.2
  rw [b.weight_eq, b'.weight_eq, hall.sizes_eq]

theorem find (h : Coupled R m n b b') (v w : Var) (hvw : R v w) :
    Option.Rel (Term.Rel R) (b.find? v) (b'.find? w) := by
  have htrails := h.trails
  rw [Bindings.find?_eq_lookup, Bindings.find?_eq_lookup]
  generalize b.trail = l at htrails
  generalize b'.trail = l' at htrails
  induction htrails with
  | nil => exact .none
  | @cons p q l l' hpq _ ih =>
    obtain ⟨x, t⟩ := p
    obtain ⟨y, u⟩ := q
    by_cases hx : v = x
    · have hy : w = y := h.unique.2 (hx ▸ hvw) hpq.1
      rw [hx, hy, List.lookup_cons_self, List.lookup_cons_self]
      exact .some hpq.2
    · have hy : w ≠ y := fun e => hx (h.unique.1 hvw (e ▸ hpq.1))
      rw [Bindings.lookup_cons_ne l t hx, Bindings.lookup_cons_ne l' u hy]
      exact ih

theorem walk (h : Coupled R m n b b') (hs : s.Rel R s') : (b.walk s).Rel R (b'.walk s') := by
  rw [Bindings.walk, Bindings.walk, h.weight_eq]
  exact Bindings.rel_walkSteps h.find hs _

theorem resolveDepth (h : Coupled R m n b b') (k : Nat) (hs : s.Rel R s') :
    (b.resolveDepth k s).Rel R (b'.resolveDepth k s') := by
  induction k generalizing s s' with
  | zero => exact hs
  | succ k ih =>
    have hw := h.walk hs
    rw [Bindings.resolveDepth, Bindings.resolveDepth]
    cases hb : b.walk s with
    | atom a => rw [hb] at hw; rw [Term.rel_atom.mp hw]; exact rfl
    | number x => rw [hb] at hw; rw [Term.rel_number.mp hw]; exact rfl
    | var v =>
      rw [hb] at hw
      obtain ⟨w, hb', hvw⟩ := Term.rel_var.mp hw
      rw [hb']
      exact hvw
    | compound f as =>
      rw [hb] at hw
      obtain ⟨as', hb', has⟩ := Term.rel_compound.mp hw
      rw [hb']
      refine ⟨rfl, Term.relAll_iff.mpr ?_⟩
      rw [List.forall₂_map_left_iff, List.forall₂_map_right_iff]
      exact (Term.relAll_iff.mp has).imp fun _ _ ha => ih ha

theorem resolve (h : Coupled R m n b b') (hs : s.Rel R s') :
    (b.resolve s).Rel R (b'.resolve s') := by
  rw [Bindings.resolve, Bindings.resolve, h.weight_eq, hs.size_eq]
  exact h.resolveDepth _ hs

theorem resolveAll (h : Coupled R m n b b') {ss ss' : List Term} (hs : Term.RelAll R ss ss') :
    Term.RelAll R (ss.map b.resolve) (ss'.map b'.resolve) := by
  rw [Term.relAll_iff, List.forall₂_map_left_iff, List.forall₂_map_right_iff]
  exact (Term.relAll_iff.mp hs).imp fun _ _ => h.resolve

theorem bind (h : Coupled R m n b b') {v w : Var} (hvw : R v w) (ht : t.Rel R t') :
    Coupled R m n (b.bind v t) (b'.bind w t') := by
  have hf := h.find v w hvw
  cases hv : b.find? v with
  | none =>
    rw [hv] at hf
    refine ⟨h.unique, h.names, h.scopes, ?_⟩
    rw [Bindings.trail_bind hv, Bindings.trail_bind (rel_none hf)]
    exact .cons ⟨hvw, ht⟩ h.trails
  | some u =>
    rw [hv] at hf
    obtain ⟨u', hw, -⟩ := rel_some hf
    have hkept : b.bind v t = b := dif_neg (by simp [hv])
    have hkept' : b'.bind w t' = b' := dif_neg (by simp [hw])
    rwa [hkept, hkept']

/-- Unification of related terms binds related variables, and fails on both sides or on none. -/
theorem unifyDepth (k : Nat) (h : Coupled R m n b b') (hs : s.Rel R s') (ht : t.Rel R t') :
    Option.Rel (Coupled R m n) (Bindings.unifyDepth k b s t) (Bindings.unifyDepth k b' s' t') := by
  induction k generalizing b b' s s' t t' with
  | zero => exact .none
  | succ k ih =>
    have hsw := h.walk hs
    have htw := h.walk ht
    have heq := hsw.eq_iff h.unique htw
    rw [Bindings.unifyDepth_succ, Bindings.unifyDepth_succ]
    generalize b.walk s = u at hsw heq
    generalize b'.walk s' = u' at hsw heq
    generalize b.walk t = w at htw heq
    generalize b'.walk t' = w' at htw heq
    by_cases huw : u = w
    · rw [if_pos huw, if_pos (heq.mp huw)]
      exact .some h
    · rw [if_neg huw, if_neg fun e => huw (heq.mpr e)]
      cases u with
      | var x =>
        obtain ⟨x', rfl, hx⟩ := Term.rel_var.mp hsw
        exact .some (h.bind hx htw)
      | atom a =>
        obtain rfl := Term.rel_atom.mp hsw
        cases w with
        | var y => obtain ⟨y', rfl, hy⟩ := Term.rel_var.mp htw; exact .some (h.bind hy hsw)
        | atom c => obtain rfl := Term.rel_atom.mp htw; exact .none
        | number c => obtain rfl := Term.rel_number.mp htw; exact .none
        | compound g ts => obtain ⟨ts', rfl, -⟩ := Term.rel_compound.mp htw; exact .none
      | number a =>
        obtain rfl := Term.rel_number.mp hsw
        cases w with
        | var y => obtain ⟨y', rfl, hy⟩ := Term.rel_var.mp htw; exact .some (h.bind hy hsw)
        | atom c => obtain rfl := Term.rel_atom.mp htw; exact .none
        | number c => obtain rfl := Term.rel_number.mp htw; exact .none
        | compound g ts => obtain ⟨ts', rfl, -⟩ := Term.rel_compound.mp htw; exact .none
      | compound f ss =>
        obtain ⟨ss', rfl, hss⟩ := Term.rel_compound.mp hsw
        cases w with
        | var y => obtain ⟨y', rfl, hy⟩ := Term.rel_var.mp htw; exact .some (h.bind hy hsw)
        | atom c => obtain rfl := Term.rel_atom.mp htw; exact .none
        | number c => obtain rfl := Term.rel_number.mp htw; exact .none
        | compound g ts =>
          obtain ⟨ts', rfl, hts⟩ := Term.rel_compound.mp htw
          dsimp only
          split
          · exact Bindings.rel_unifyAll (fun h _ _ => ih h) h hss hts
          · exact .none

theorem unify? (h : Coupled R m n b b') (hs : s.Rel R s') (ht : t.Rel R t') :
    Option.Rel (Coupled R m n) (b.unify? s t) (b'.unify? s' t') := by
  rw [Bindings.unify?_eq, Bindings.unify?_eq, h.weight_eq, hs.size_eq, ht.size_eq]
  exact h.unifyDepth _ hs ht

theorem equate? (h : Coupled R m n b b') {es es' : List (Term × Term)}
    (hes : List.Forall₂ (RelTerms R) es es') :
    Option.Rel (Coupled R m n) (equate? b es) (equate? b' es') :=
  rel_equate (fun h hp => h.unify? hp.1 hp.2) h hes

theorem mono (h : Coupled R m n b b') {m' n' : Nat} (hm : m ≤ m') (hn : n ≤ n') :
    Coupled R m' n' b b' :=
  ⟨h.unique, h.names, fun v w hvw => ⟨(h.scopes v w hvw).1.trans hm, (h.scopes v w hvw).2.trans hn⟩,
    h.trails⟩

/-- The next scope on either side can be taken for a new copy of a clause. -/
theorem extend (h : Coupled R m n b b') : Coupled (Linked.fresh R m n) (m + 1) (n + 1) b b' where
  unique := Linked.biUnique_fresh h.unique h.scopes
  names := by
    rintro v w (hvw | ⟨hname, -, -⟩)
    · exact h.names v w hvw
    · exact hname
  scopes := by
    rintro v w (hvw | ⟨-, hv, hw⟩)
    · have := h.scopes v w hvw
      omega
    · omega
  trails := h.trails.imp fun _ _ hp =>
    ⟨Linked.fresh_of_rel hp.1, hp.2.mono fun _ _ => Linked.fresh_of_rel⟩

theorem flip (h : Coupled R m n b b') : Coupled (flip R) n m b' b where
  unique := ⟨fun _ _ _ hv hv' => h.unique.2 hv hv', fun _ _ _ hv hv' => h.unique.1 hv hv'⟩
  names v w hvw := (h.names w v hvw).symm
  scopes v w hvw := (h.scopes w v hvw).symm
  trails := h.trails.flip.imp fun _ _ hp => ⟨hp.1, hp.2.flip⟩

theorem comp {k : Nat} {c : Bindings} (h : Coupled R m n b b') (h' : Coupled S n k b' c) :
    Coupled (Relation.Comp R S) m k b c where
  unique := biUnique_comp h.unique h'.unique
  names := by
    rintro v u ⟨w, hvw, hwu⟩
    exact (h.names v w hvw).trans (h'.names w u hwu)
  scopes := by
    rintro v u ⟨w, hvw, hwu⟩
    exact ⟨(h.scopes v w hvw).1, (h'.scopes w u hwu).2⟩
  trails := by
    have htrails := h.trails
    have htrails' := h'.trails
    generalize b.trail = l at htrails
    generalize b'.trail = l' at htrails htrails'
    generalize c.trail = l'' at htrails'
    induction htrails generalizing l'' with
    | nil => cases htrails'; exact .nil
    | cons hp _ ih =>
      cases htrails' with
      | cons hp' hrest => exact .cons ⟨⟨_, hp.1, hp'.1⟩, hp.2.comp hp'.2⟩ (ih _ hrest)

theorem empty : Coupled Reference.Same 0 0 .empty .empty where
  unique := ⟨fun _ _ _ h h' => h.1.trans h'.1.symm, fun _ _ _ h h' => h.1.symm.trans h'.1⟩
  names := by
    rintro v _ ⟨rfl, -⟩
    rfl
  scopes := by
    rintro v _ ⟨rfl, hv⟩
    simp [hv]
  trails := .nil

end Coupled

/-- Answers read off such bindings are the same, up to the names of unbound variables. -/
theorem Solution.variantOf_ofVariables {m n : Nat} {b b' : Bindings} (h : Coupled R m n b b')
    {vs : List Var} (hscope : ∀ v ∈ vs, v.scope = 0) (hvs : ∀ v ∈ vs, R v v) :
    (ofVariables vs b).VariantOf (ofVariables vs b') := by
  refine ⟨keys_ofVariables vs b b', R, h.unique, fun x hx => ?_⟩
  obtain ⟨v, hv, rfl⟩ := mem_keys_ofVariables hx
  have heq : v = ⟨v.name, 0⟩ := by rw [← hscope v hv]
  have hmem : ⟨v.name, 0⟩ ∈ vs := heq ▸ hv
  exact ⟨_, _, find?_ofVariables hscope hmem b, find?_ofVariables hscope hmem b',
    h.resolve (show (Term.var ⟨v.name, 0⟩).Rel R (.var ⟨v.name, 0⟩) from hvs _ hmem)⟩

/-- Foreign predicates do not look at the scopes of variables, and bring in no variables of their
own. -/
def Library.IgnoresScopes (l : Library) : Prop :=
  ∀ R : Var → Var → Prop, Relator.BiUnique R → (∀ v w, R v w → v.name = w.name) →
    ∀ s as as', Term.RelAll R as as' →
    Option.Rel (List.Forall₂ (RelTerms R)) (l.call s as) (l.call s as')

theorem Library.Uniform.ignoresScopes {l : Library} (h : l.Uniform) : l.IgnoresScopes := by
  intro R hR _ s as as' has
  have hcall := h.call hR s has
  generalize l.call s as = x at hcall
  generalize l.call s as' = y at hcall
  cases hcall with
  | none => exact .none
  | some hes => exact .some (hes.imp fun _ _ hp => ⟨hp.left, hp.right⟩)

namespace Reference

variable {m n : Nat} {b b' : Bindings} {gs gs' : List Goal} {e : Engine}

structure GoalPair (R : Var → Var → Prop) (g g' : Goal) : Prop where
  term : g.term.Rel R g'.term
  depth : g.depth = g'.depth

theorem GoalPair.mono (h : ∀ v w, R v w → S v w) (hg : List.Forall₂ (GoalPair R) gs gs') :
    List.Forall₂ (GoalPair S) gs gs' :=
  hg.imp fun _ _ hgg => ⟨hgg.term.mono h, hgg.depth⟩

theorem goalPair_body (h : ∀ name, R ⟨name, m⟩ ⟨name, n⟩) (c : Clause) (depth : Nat) :
    List.Forall₂ (GoalPair R) ((c.rename m).body.map (⟨·, depth⟩))
      ((c.rename n).body.map (⟨·, depth⟩)) := by
  rw [List.forall₂_map_left_iff, List.forall₂_map_right_iff]
  have hbody := Term.relAll_iff.mp (Term.relAll_renameList h c.body)
  exact hbody.imp fun _ _ ht => ⟨ht, rfl⟩

theorem foreign?_coupled (hlib : e.library.IgnoresScopes) (h : Coupled R m n b b')
    {goal goal' : Term} (hgoal : goal.Rel R goal') (s : Signature) :
    Option.Rel (Coupled R m n) (foreign? e b goal s) (foreign? e b' goal' s) := by
  have hcall := hlib R h.unique h.names s _ _ (h.resolveAll hgoal.args)
  unfold foreign?
  generalize e.library.call s (goal.args.map b.resolve) = x at hcall
  generalize e.library.call s (goal'.args.map b'.resolve) = y at hcall
  cases hcall with
  | none => exact .none
  | some hes => exact h.equate? hes

end Reference

end GraphRules
