import GraphRules.Proofs.Restoring
import GraphRules.Proofs.Uniform

/-! What goals ask for, and how goals that a renaming relates are worked on alike. -/
namespace GraphRules.Search

theorem task_atom (a : String) :
    task (.atom a) =
      if a = "true" then .done else if a = "fail" ∨ a = "false" then .failing else .call ⟨a, 0⟩ :=
  rfl

theorem task_one (f : String) (a : Term) :
    task (.compound f [a]) = if f = "not" then .negation a else .call ⟨f, 1⟩ := by
  by_cases hf : f = "not"
  · subst hf
    rfl
  · simp [task, hf]

theorem task_two (f : String) (a b : Term) :
    task (.compound f [a, b]) =
      if f = "," then .both a b
      else if f = ";" then .either a b
      else if f ∈ comparisonNames then .comparison f a b else .call ⟨f, 2⟩ := by
  by_cases hc : f = ","
  · subst hc
    rfl
  · by_cases hd : f = ";"
    · subst hd
      rfl
    · simp [task, hc, hd]

theorem task_other (f : String) {as : List Term} (h₁ : as.length ≠ 1) (h₂ : as.length ≠ 2) :
    task (.compound f as) = .call ⟨f, as.length⟩ := by
  match as, h₁, h₂ with
  | [], _, _ => simp [task]
  | _ :: _ :: _ :: _, _, _ => simp [task]

theorem task_shape (t : Term) :
    match task t with
    | .both a b => t = .compound "," [a, b]
    | .either a b => t = .compound ";" [a, b]
    | .negation a => t = .compound "not" [a]
    | .comparison op a b => t = .compound op [a, b]
    | .call s => t.signature? = some s
    | _ => True := by
  cases t with
  | atom a =>
    rw [task_atom]
    split_ifs <;> trivial
  | number x => trivial
  | var v => trivial
  | compound f as =>
    match as with
    | [] => rw [task_other f (by simp) (by simp)]; rfl
    | [a] =>
      rw [task_one]
      by_cases hf : f = "not" <;> simp [hf, Term.signature?]
    | [a, b] =>
      rw [task_two]
      by_cases hc : f = ","
      · simp [hc]
      · by_cases hd : f = ";"
        · simp [hd]
        · by_cases hm : f ∈ comparisonNames <;> simp [hc, hd, hm, Term.signature?]
    | a :: b :: c :: as => rw [task_other f (by simp) (by simp)]; rfl

variable {a s s' t : Term} {es es' : List (Term × Term)} {b' : Bindings}

theorem eq_of_task_both {b : Term} (h : task t = .both a b) : t = .compound "," [a, b] := by
  have hs := task_shape t
  rwa [h] at hs

theorem eq_of_task_either {b : Term} (h : task t = .either a b) : t = .compound ";" [a, b] := by
  have hs := task_shape t
  rwa [h] at hs

theorem eq_of_task_negation (h : task t = .negation a) : t = .compound "not" [a] := by
  have hs := task_shape t
  rwa [h] at hs

theorem signature_of_task_call {s : Signature} (h : task t = .call s) : t.signature? = some s := by
  have hs := task_shape t
  rwa [h] at hs

inductive Task.Rel (R : Var → Var → Prop) : Task → Task → Prop
  | done : Rel R .done .done
  | failing : Rel R .failing .failing
  | both {a a' b b' : Term} : a.Rel R a' → b.Rel R b' → Rel R (.both a b) (.both a' b')
  | either {a a' b b' : Term} : a.Rel R a' → b.Rel R b' → Rel R (.either a b) (.either a' b')
  | negation {a a' : Term} : a.Rel R a' → Rel R (.negation a) (.negation a')
  | comparison (op : String) {a a' b b' : Term} : a.Rel R a' → b.Rel R b' →
    Rel R (.comparison op a b) (.comparison op a' b')
  | call (s : Signature) : Rel R (.call s) (.call s)

variable {R : Var → Var → Prop}

theorem task_rel (h : s.Rel R s') : Task.Rel R (task s) (task s') := by
  cases s with
  | atom a =>
    rw [Term.rel_atom.mp h, task_atom]
    split
    · exact .done
    · split
      · exact .failing
      · exact .call _
  | number x => rw [Term.rel_number.mp h]; exact .failing
  | var v => obtain ⟨w, rfl, _⟩ := Term.rel_var.mp h; exact .failing
  | compound f as =>
    obtain ⟨as', rfl, has⟩ := Term.rel_compound.mp h
    match as, as', has with
    | [], [], _ => rw [task_other f (by simp) (by simp)]; exact .call _
    | [a], [a'], ⟨ha, _⟩ =>
      rw [task_one, task_one]
      split
      · exact .negation ha
      · exact .call _
    | [a, b], [a', b'], ⟨ha, hb, _⟩ =>
      rw [task_two, task_two]
      split
      · exact .both ha hb
      · split
        · exact .either ha hb
        · split
          · exact .comparison f ha hb
          · exact .call _
    | a :: b :: c :: as, a' :: b' :: c' :: as', has =>
      have hlen := (Term.relAll_iff.mp has).length_eq
      rw [task_other f (by simp) (by simp), task_other f (by simp) (by simp), hlen]
      exact .call _

/-- Comparisons look at variables only to tell them apart. -/
theorem compares_rel (hR : Relator.BiUnique R) (op : String) {t' : Term} (hs : s.Rel R s')
    (ht : t.Rel R t') : compares op s t = compares op s' t' := by
  have heq := hs.eq_iff hR ht
  have hother : ∀ {u u' v v' : Term}, (∀ x y, u = .number x → u' = .number y → False) →
      (∀ x y, v = .number x → v' = .number y → False) → (u = u' ↔ v = v') →
        compares op u u' = compares op v v' := by
    intro u u' v v' h h' huv
    by_cases hsame : op = "=="
    · rw [hsame, compares.eq_2 _ _ h, compares.eq_2 _ _ h', decide_eq_decide]
      exact huv
    by_cases hdiffer : op = "!="
    · rw [hdiffer, compares.eq_3 _ _ h, compares.eq_3 _ _ h', decide_eq_decide]
      exact not_congr huv
    · rw [compares.eq_4 _ _ _ h hsame hdiffer, compares.eq_4 _ _ _ h' hsame hdiffer]
  by_cases hnum : ∃ x y, s = .number x ∧ t = .number y
  · obtain ⟨x, y, rfl, rfl⟩ := hnum
    rw [Term.rel_number.mp hs, Term.rel_number.mp ht]
  · have hnum' : ∀ x y, s' = .number x → t' = .number y → False := by
      intro x y hx hy
      subst hx hy
      cases s with
      | number x' =>
        cases t with
        | number y' => exact hnum ⟨x', y', rfl, rfl⟩
        | atom _ => exact ht.elim
        | var _ => exact ht.elim
        | compound _ _ => exact ht.elim
      | atom _ => exact hs.elim
      | var _ => exact hs.elim
      | compound _ _ => exact hs.elim
    exact hother (fun x y hx hy => hnum ⟨x, y, hx, hy⟩) hnum' heq

/-- Equations between constants and variables only add bindings. -/
theorem tidy_equate {b c : Bindings} (h : b.Tidy) (hes : ∀ p ∈ es, p.1.isFlat ∧ p.2.isFlat)
    (he : equate? b es = some c) : c.Tidy ∧ b.Extends c := by
  induction es generalizing b with
  | nil => cases he; exact ⟨h, .refl _⟩
  | cons p es ih =>
    obtain ⟨s, t⟩ := p
    have hst := hes (s, t) (by simp)
    rw [equate?_cons, Bindings.unify?_of_flat h hst.1 hst.2] at he
    cases hb : b.matchFlat s t with
    | none => rw [hb] at he; cases he
    | some b₁ =>
      rw [hb] at he
      have hrest := ih (h.matchFlat hst.1 hst.2 hb) (fun p hp => hes p (by simp [hp])) he
      exact ⟨hrest.1, (Bindings.extends_matchFlat h hb).trans hrest.2⟩

theorem rel_equate {Q : Bindings → Bindings → Prop} {P : Term × Term → Term × Term → Prop}
    (hstep : ∀ {b b' : Bindings} {p p' : Term × Term}, Q b b' → P p p' →
      Option.Rel Q (b.unify? p.1 p.2) (b'.unify? p'.1 p'.2)) {b : Bindings} (h : Q b b')
    (hes : List.Forall₂ P es es') : Option.Rel Q (equate? b es) (equate? b' es') := by
  induction hes generalizing b b' with
  | nil => exact .some h
  | @cons p p' es es' hp _ ih =>
    have hu := hstep h hp
    obtain ⟨s, t⟩ := p
    obtain ⟨s', t'⟩ := p'
    rw [equate?_cons, equate?_cons]
    cases hb : b.unify? s t with
    | none =>
      rw [show b.unify? (s, t).1 (s, t).2 = none from hb] at hu
      rw [rel_none hu]
      exact .none
    | some b₁ =>
      rw [show b.unify? (s, t).1 (s, t).2 = some b₁ from hb] at hu
      obtain ⟨b₂, hb', hl⟩ := rel_some hu
      rw [hb']
      exact ih hl

theorem equate_linked {m n : Nat} {b : Bindings} (h : Linked R m n b b')
    (hes : List.Forall₂ (RelPair R) es es') :
    Option.Rel (Linked R m n) (equate? b es) (equate? b' es') :=
  rel_equate (fun h hp => h.unify?_flat hp.left hp.right hp.flat.1 hp.flat.2) h hes

end GraphRules.Search
