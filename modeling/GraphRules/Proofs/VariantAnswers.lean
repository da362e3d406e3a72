import GraphRules.Proofs.AnswerBags
import GraphRules.Proofs.ScopeWords
import Mathlib.Logic.Relation

/-! Answers that are the same up to the names of unbound variables. Bags of such answers are
compared one answer with one answer, in no order. -/
namespace GraphRules

variable {R S : Var → Var → Prop} {names : List String}

namespace Term

mutual

theorem Rel.comp : ∀ {s t u : Term}, s.Rel R t → t.Rel S u → s.Rel (Relation.Comp R S) u
  | .atom _, .atom _, .atom _, h, h' => Eq.trans h h'
  | .number _, .number _, .number _, h, h' => Eq.trans h h'
  | .var _, .var w, .var _, h, h' => ⟨w, h, h'⟩
  | .compound _ _, .compound _ _, .compound _ _, h, h' => ⟨h.1.trans h'.1, RelAll.comp h.2 h'.2⟩

theorem RelAll.comp :
    ∀ {as bs cs : List Term}, RelAll R as bs → RelAll S bs cs → RelAll (Relation.Comp R S) as cs
  | [], [], [], _, _ => trivial
  | _ :: _, _ :: _, _ :: _, h, h' => ⟨Rel.comp h.1 h'.1, RelAll.comp h.2 h'.2⟩

end

mutual

theorem Rel.flip : ∀ {s t : Term}, s.Rel R t → t.Rel (flip R) s
  | .atom _, .atom _, h => Eq.symm h
  | .number _, .number _, h => Eq.symm h
  | .var _, .var _, h => h
  | .compound _ _, .compound _ _, h => ⟨h.1.symm, RelAll.flip h.2⟩

theorem RelAll.flip : ∀ {as bs : List Term}, RelAll R as bs → RelAll (flip R) bs as
  | [], [], _ => trivial
  | _ :: _, _ :: _, h => ⟨Rel.flip h.1, RelAll.flip h.2⟩

end

end Term

theorem biUnique_comp (hR : Relator.BiUnique R) (hS : Relator.BiUnique S) :
    Relator.BiUnique (Relation.Comp R S) := by
  constructor
  · rintro v v' u ⟨w, hvw, hwu⟩ ⟨w', hvw', hwu'⟩
    cases hS.1 hwu hwu'
    exact hR.1 hvw hvw'
  · rintro v u u' ⟨w, hvw, hwu⟩ ⟨w', hvw', hwu'⟩
    cases hR.2 hvw hvw'
    exact hS.2 hwu hwu'

theorem rel_of_forall₂ {α β : Type} {r : α → β → Prop} {as : List α} {bs : List β}
    (h : List.Forall₂ r as bs) : Multiset.Rel r as bs := by
  induction h with
  | nil => exact .zero
  | cons hab _ ih => exact .cons hab ih

theorem rel_sum {α β γ δ : Type} {r : γ → δ → Prop} {f : α → Multiset γ} {g : β → Multiset δ}
    {as : List α} {bs : List β} (h : List.Forall₂ (fun a b => Multiset.Rel r (f a) (g b)) as bs) :
    Multiset.Rel r (as.map f).sum (bs.map g).sum := by
  induction h with
  | nil => exact .zero
  | cons hab _ ih =>
    rw [List.map_cons, List.map_cons, List.sum_cons, List.sum_cons]
    exact hab.add ih

namespace Reference

open Search

variable {e e' : Engine} {o k m n m' n' : Nat} {b b' c c' : Bindings} {gs gs' : List Goal}

def Variant (names : List String) (p p' : Nat × Bindings) : Prop :=
  ∃ R, Relator.BiUnique R ∧ ∀ x ∈ names,
    (p.2.resolve (.var ⟨x, 0⟩)).Rel R (p'.2.resolve (.var ⟨x, 0⟩))

instance : IsTrans (Nat × Bindings) (Variant names) where
  trans := by
    rintro p p' p'' ⟨R, hR, h⟩ ⟨S, hS, h'⟩
    exact ⟨_, biUnique_comp hR hS, fun x hx => (h x hx).comp (h' x hx)⟩

theorem variant_flip {p p' : Nat × Bindings} (h : Variant names p p') : Variant names p' p := by
  obtain ⟨R, hR, h⟩ := h
  exact ⟨flip R, ⟨fun _ _ _ hv hv' => hR.2 hv hv', fun _ _ _ hv hv' => hR.1 hv hv'⟩, fun x hx =>
    (h x hx).flip⟩

/-- What a renaming says of a variable on the left, it says of those that were bound to it from the
start. -/
theorem Copied.variant (h : Copied R m n b m' c n' c')
    (hnames : ∀ x ∈ names, ∃ v, R v ⟨x, 0⟩ ∧ (v = ⟨x, 0⟩ ∨ b.find? ⟨x, 0⟩ = some (.var v))) :
    Variant names (m', c) (n', c') := by
  obtain ⟨R', hR', hlinked⟩ := h.linked
  refine ⟨R', hlinked.unique, fun x hx => ?_⟩
  obtain ⟨v, hv, hbound⟩ := hnames x hx
  have hrel := hlinked.resolve (show (Term.var v).Rel R' (.var ⟨x, 0⟩) from hR' _ _ hv) rfl
  rcases hbound with rfl | hbound
  · exact hrel
  · have hwalk := Bindings.walk_of_find? hlinked.left.forward (h.kept _ _ hbound)
    rw [Bindings.resolve_of_flat hlinked.left rfl] at hrel
    rwa [Bindings.resolve_of_flat hlinked.left rfl, hwalk]

theorem rel_bag (hprog : Halts e) (hshift : Engine.Shifted o e e') (h : Linked R m n b b')
    (hgs : List.Forall₂ (GoalRel R o) gs gs') :
    Multiset.Rel (fun p p' => Copied R m n b p.1 p.2 p'.1 p'.2)
      (bag e m b gs) (bag e' n b' gs') := by
  have htame : ∀ g ∈ gs, g.term.Tame := fun g hg => by
    obtain ⟨g', _, hgg⟩ := exists_of_mem_left hgs hg
    exact hgg.tame
  obtain ⟨k, hk⟩ := hprog.ends m b gs h.left htame
  have halike : AlikeFrom .perBranch .perBranch R m n b (branches e k m b gs)
      (branches e' k n b' gs') :=
    solve_alike Counting.plain_perBranch Counting.plain_perBranch
      hprog.toFunctionless hshift k h hgs
  have hk' := hk
  rw [halike.ends] at hk'
  rw [bag_of_ends hk, bag_of_ends hk']
  exact rel_of_forall₂ halike.answers

/-- However clauses are counted, the answers to a goal are the same. -/
theorem rel_solveGoal (hprog : e.Functionless) {goal : Term} (htame : goal.Tame)
    (hscope : ∀ v ∈ goal.occurrences, v.scope = 0) (hk : (solveGoal .shared e k goal).ends) :
    Multiset.Rel (Variant names) (solveGoal .shared e k goal).answers
      (bag e 0 .empty [⟨goal, 0⟩]) := by
  have halike : AlikeFrom .shared .perBranch Same 0 0 .empty _
      (branches e k 0 .empty [⟨goal, 0⟩]) :=
    solveGoal_alike Counting.plain_shared Counting.plain_perBranch hprog htame hscope k
  rw [halike.ends] at hk
  rw [bag_of_ends hk]
  refine rel_of_forall₂ (halike.answers.imp fun _ _ hcopied => hcopied.variant fun x _ => ?_)
  exact ⟨⟨x, 0⟩, ⟨rfl, rfl⟩, .inl rfl⟩

end Reference

namespace Solution

def Variant (names : List String) (a a' : Solution) : Prop :=
  ∃ R, Relator.BiUnique R ∧ ∀ x ∈ names, ∃ t t', a.find? x = some t ∧
    a'.find? x = some t' ∧ t.Rel R t'

def keys (a : Solution) : List String := a.bindings.map Prod.fst

/-- Answers that show the same terms for the same names, up to the names of unbound variables. -/
def VariantOf (a a' : Solution) : Prop := a.keys = a'.keys ∧ Variant a.keys a a'

theorem lookup_insert (name : String) (t : Term) (bs : List (String × Term)) (x : String) :
    (insert name t bs).lookup x = if x = name then some t else bs.lookup x := by
  induction bs with
  | nil => grind [insert]
  | cons p bs ih =>
    obtain ⟨n, u⟩ := p
    simp only [insert]
    split_ifs <;> grind

variable {bs : List (String × Term)} {x : String} {vs : List Var}

theorem find?_ofVariables (hvs : ∀ v ∈ vs, v.scope = 0) (hx : ⟨x, 0⟩ ∈ vs) (b : Bindings) :
    (ofVariables vs b).find? x = some (b.resolve (.var ⟨x, 0⟩)) := by
  have hfold : ∀ (vs : List Var) (bs : List (String × Term)), (∀ v ∈ vs, v.scope = 0) →
      ⟨x, 0⟩ ∈ vs ∨ bs.lookup x = some (b.resolve (.var ⟨x, 0⟩)) →
      (vs.foldl (fun bs v => insert v.name (b.resolve (.var v)) bs) bs).lookup x =
        some (b.resolve (.var ⟨x, 0⟩)) := by
    intro vs
    induction vs with
    | nil => exact fun bs _ h => h.resolve_left (by simp)
    | cons v vs ih =>
      intro bs hvs h
      refine ih _ (fun w hw => hvs w (by simp [hw])) ?_
      obtain ⟨name, scope⟩ := v
      have hscope : scope = 0 := hvs ⟨name, scope⟩ (by simp)
      rw [lookup_insert]
      by_cases hname : x = name
      · exact .inr (by rw [if_pos hname, hname, hscope])
      · rw [if_neg hname]
        simpa [hname] using h
  exact hfold vs [] hvs (.inl hx)

theorem map_fst_insert (name : String) (t u : Term) {bs' : List (String × Term)}
    (h : bs.map Prod.fst = bs'.map Prod.fst) :
    (insert name t bs).map Prod.fst = (insert name u bs').map Prod.fst := by
  induction bs generalizing bs' with
  | nil =>
    obtain rfl := List.map_eq_nil_iff.mp h.symm
    rfl
  | cons p bs ih =>
    obtain ⟨q, bs', rfl, hname, hrest⟩ := List.map_eq_cons_iff.mp h.symm
    obtain ⟨x, t'⟩ := p
    obtain ⟨y, u'⟩ := q
    obtain rfl : y = x := hname
    simp only [insert]
    split_ifs
    · simp [hrest]
    · simp [hrest]
    · rw [List.map_cons, List.map_cons, ih hrest.symm]

/-- Which names an answer shows does not depend on the bindings. -/
theorem keys_ofVariables (vs : List Var) (b b' : Bindings) :
    (ofVariables vs b).keys = (ofVariables vs b').keys := by
  have hfold : ∀ (vs : List Var) (bs bs' : List (String × Term)),
      bs.map Prod.fst = bs'.map Prod.fst →
      (vs.foldl (fun bs v => insert v.name (b.resolve (.var v)) bs) bs).map Prod.fst =
        (vs.foldl (fun bs v => insert v.name (b'.resolve (.var v)) bs) bs').map Prod.fst := by
    intro vs
    induction vs with
    | nil => exact fun _ _ h => h
    | cons v vs ih => exact fun bs bs' h => ih _ _ (map_fst_insert _ _ _ h)
  exact hfold vs [] [] rfl

theorem mem_keys_insert {name : String} {t : Term} (h : x ∈ (insert name t bs).map Prod.fst) :
    x = name ∨ x ∈ bs.map Prod.fst := by
  induction bs with
  | nil => simpa [insert] using h
  | cons p bs ih =>
    simp only [insert] at h
    split_ifs at h <;> grind

theorem mem_keys_ofVariables {b : Bindings} (h : x ∈ (ofVariables vs b).keys) :
    ∃ v ∈ vs, v.name = x := by
  have hfold : ∀ (vs : List Var) (bs : List (String × Term)),
      x ∈ (vs.foldl (fun bs v => insert v.name (b.resolve (.var v)) bs) bs).map Prod.fst →
      (∃ v ∈ vs, v.name = x) ∨ x ∈ bs.map Prod.fst := by
    intro vs
    induction vs with
    | nil => exact fun _ h => .inr h
    | cons v vs ih =>
      intro bs h
      obtain ⟨w, hw, hname⟩ | h := ih _ h
      · exact .inl ⟨w, by simp [hw], hname⟩
      · obtain rfl | h := mem_keys_insert h
        · exact .inl ⟨v, by simp, rfl⟩
        · exact .inr h
  simpa using hfold vs [] h

end Solution

namespace Engine

open Reference

/-- Goals with the same bag of answers have the same sequences of answers, but for their order. -/
theorem rel_collect {e e' : Engine} (hprog : e.Functionless) (hprog' : e'.Functionless)
    (hs : e.limits.solutions? = none) (hs' : e'.limits.solutions? = none) {goal goal' : Term}
    (htame : goal.Tame) (htame' : goal'.Tame) (hscope : ∀ v ∈ goal.occurrences, v.scope = 0)
    (hscope' : ∀ v ∈ goal'.occurrences, v.scope = 0)
    (hnames : ∀ x ∈ names, ⟨x, 0⟩ ∈ (Solutions.ofGoal goal).vars ∧
      ⟨x, 0⟩ ∈ (Solutions.ofGoal goal').vars)
    (hbags : Multiset.Rel (Variant names)
      (bag e 0 .empty [⟨goal, 0⟩]) (bag e' 0 .empty [⟨goal', 0⟩])) {budget n budget' n' : Nat}
    {as as' : List Solution} {s s' : Solutions}
    (hc : Solutions.collect? e budget n (.ofGoal goal) = some (as, s))
    (htries : s.run.tries < 2 ^ 32)
    (hc' : Solutions.collect? e' budget' n' (.ofGoal goal') = some (as', s'))
    (htries' : s'.run.tries < 2 ^ 32) : Multiset.Rel (Solution.Variant names) as as' := by
  have hvars : ∀ {goal : Term}, (∀ v ∈ goal.occurrences, v.scope = 0) →
      ∀ v ∈ (Solutions.ofGoal goal).vars, v.scope = 0 := by
    intro goal hscope v hv
    exact hscope v (List.mem_eraseDups.mp (List.mem_filter.mp hv).1)
  obtain ⟨hlast, rfl, _⟩ := solveGoal_shared_of_collect hs hc htries (Nat.le_refl _)
  obtain ⟨hlast', rfl, _⟩ := solveGoal_shared_of_collect hs' hc' htries' (Nat.le_refl _)
  have hends := Trace.ends_of_last? hlast
  have hends' := Trace.ends_of_last? hlast'
  have hright : Multiset.Rel (Variant names) _ _ := rel_solveGoal hprog' htame' hscope' hends'
  have hback := Multiset.rel_flip.mp (hright.mono fun _ _ _ _ h => variant_flip h)
  have hall := ((rel_solveGoal hprog htame hscope hends).trans _ hbags).trans _ hback
  rw [solutions, solutions, ← Multiset.map_coe, ← Multiset.map_coe, Multiset.rel_map]
  refine hall.mono fun p _ p' _ hvariant => ?_
  obtain ⟨R, hR, h⟩ := hvariant
  refine ⟨R, hR, fun x hx => ⟨_, _, ?_, ?_, h x hx⟩⟩
  · exact Solution.find?_ofVariables (hvars hscope) (hnames x hx).1 p.2
  · exact Solution.find?_ofVariables (hvars hscope') (hnames x hx).2 p'.2

end Engine

end GraphRules
