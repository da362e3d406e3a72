import GraphRules.Proofs.Reference
import GraphRules.Proofs.Tasks

/-! Searches that differ in the names of variables. Two searches for goals that a renaming relates
come upon the same things in the same order, and their answers are related by a renaming as well,
whatever scopes are given out in them. Programs are taken to have no compound terms as arguments, as
those of scripts. -/
namespace GraphRules

open Search

/-- Goals whose calls have no compound terms as arguments. -/
inductive Term.Tame : Term → Prop
  | flat {t : Term} (h : t.isFlat) : Tame t
  | call (p : String) {args : List Term} (h : args.all Term.isFlat) : Tame (.apply p args)
  | both {a b : Term} (ha : Tame a) (hb : Tame b) : Tame (.compound "," [a, b])
  | either {a b : Term} (ha : Tame a) (hb : Tame b) : Tame (.compound ";" [a, b])
  | negation {a : Term} (ha : Tame a) : Tame (.compound "not" [a])

/-- Programs whose clauses and foreign predicates deal in constants and variables only. -/
structure Engine.Functionless (e : Engine) : Prop where
  heads : ∀ s, ∀ c ∈ e.clausesOf s, ∃ p args, c.head = .apply p args ∧ args.all Term.isFlat
  bodies : ∀ s, ∀ c ∈ e.clausesOf s, ∀ g ∈ c.body, g.Tame
  foreign : e.library.Uniform

structure Engine.Shifted (o : Nat) (e e' : Engine) : Prop where
  library : e'.library = e.library
  database : e'.database = e.database
  depth : e.limits.depth = e'.limits.depth + o

def Search.Task.Tame (t : Term) : Task → Prop
  | .both a b => a.Tame ∧ b.Tame
  | .either a b => a.Tame ∧ b.Tame
  | .negation a => a.Tame
  | .comparison _ a b => a.isFlat ∧ b.isFlat
  | .call _ => ∃ p args, t = .apply p args ∧ args.all Term.isFlat
  | .done => True
  | .failing => True

namespace Term

variable {t : Term}

theorem tame_task_atom (a : String) : (task (.atom a)).Tame (.atom a) := by
  rw [task_atom]
  split_ifs
  · trivial
  · trivial
  · exact ⟨a, [], rfl, rfl⟩

theorem Tame.task (h : t.Tame) : (task t).Tame t := by
  cases h with
  | @flat t h =>
    cases t with
    | atom a => exact tame_task_atom a
    | number x => trivial
    | var v => trivial
    | compound f as => cases h
  | @call p args h =>
    match args, h with
    | [], _ => exact tame_task_atom p
    | [a], h =>
      have ha : a.isFlat := by simpa using h
      simp only [apply, task_one]
      split_ifs
      · exact .flat ha
      · exact ⟨p, [a], rfl, h⟩
    | [a, b], h =>
      have hab : a.isFlat ∧ b.isFlat := by simpa using h
      simp only [apply, task_two]
      split_ifs
      · exact ⟨.flat hab.1, .flat hab.2⟩
      · exact ⟨.flat hab.1, .flat hab.2⟩
      · exact hab
      · exact ⟨p, [a, b], rfl, h⟩
    | a :: b :: c :: as, h =>
      simp only [apply]
      rw [task_other p (by simp) (by simp)]
      exact ⟨p, a :: b :: c :: as, rfl, h⟩
  | both ha hb => exact ⟨ha, hb⟩
  | either ha hb => exact ⟨ha, hb⟩
  | negation ha => exact ha

theorem Tame.walk {b : Bindings} (hb : b.Tidy) (h : t.Tame) : (b.walk t).Tame := by
  by_cases hv : ∃ v, t = .var v
  · obtain ⟨v, rfl⟩ := hv
    exact .flat (hb.walk rfl)
  · rw [Bindings.walk_nonvar b fun v e => hv ⟨v, e⟩]
    exact h

theorem Tame.rename (h : t.Tame) (m : Nat) : (t.rename m).Tame := by
  induction h with
  | flat h => exact .flat ((isFlat_rename _ m).trans h)
  | @call p args h =>
    rw [apply_rename]
    exact .call p ((all_isFlat_renameList m args).trans h)
  | both _ _ iha ihb => exact .both iha ihb
  | either _ _ iha ihb => exact .either iha ihb
  | negation _ ih => exact .negation ih

end Term

theorem Clause.tame_rename {c : Clause} (hbody : ∀ t ∈ c.body, t.Tame) (m : Nat) {t : Term}
    (ht : t ∈ (c.rename m).body) : t.Tame := by
  rw [Clause.rename, Term.renameList_eq_map] at ht
  obtain ⟨u, hu, rfl⟩ := List.mem_map.mp ht
  exact (hbody u hu).rename m

namespace Reference

variable {ε δ : Type}

inductive Trace.Alike {ε δ : Type} (A : Nat → Bindings → Nat → Bindings → Prop) (D : ε → δ → Prop) :
    Trace ε → Trace δ → Prop
  | done {x : ε} {y : δ} (h : D x y) : Alike A D (.done x) (.done y)
  | interrupted : Alike A D .interrupted .interrupted
  | step {s : Trace ε} {t : Trace δ} (h : Alike A D s t) : Alike A D (.step s) (.step t)
  | cut {s : Trace ε} {t : Trace δ} (h : Alike A D s t) : Alike A D (.cut s) (.cut t)
  | answer {s : Trace ε} {t : Trace δ} {m n : Nat} {b b' : Bindings} (ha : A m b n b')
    (h : Alike A D s t) : Alike A D (.answer m b s) (.answer n b' t)

namespace Trace.Alike

variable {ε' δ' : Type} {A A' : Nat → Bindings → Nat → Bindings → Prop} {D : ε → δ → Prop}
  {D' : ε' → δ' → Prop} {s : Trace ε} {t : Trace δ} {f : ε → Trace ε'} {g : δ → Trace δ'}

theorem imp {D' : ε → δ → Prop} (h : Alike A D s t) (hA : ∀ m b n b', A m b n b' → A' m b n b')
    (hD : ∀ x y, D x y → D' x y) : Alike A' D' s t := by
  induction h with
  | done h => exact .done (hD _ _ h)
  | interrupted => exact .interrupted
  | step _ ih => exact .step ih
  | cut _ ih => exact .cut ih
  | answer ha _ ih => exact .answer (hA _ _ _ _ ha) ih

theorem andThen (h : Alike A D s t) (hf : ∀ x y, D x y → Alike A D' (f x) (g y)) :
    Alike A D' (s.andThen f) (t.andThen g) := by
  induction h with
  | done h => exact hf _ _ h
  | interrupted => exact .interrupted
  | step _ ih => exact .step ih
  | cut _ ih => exact .cut ih
  | answer ha _ ih => exact .answer ha ih

theorem ifFails {i : Nat → ε'} {j : Nat → δ'} (h : Alike A D s t)
    (hf : ∀ x y, D x y → Alike A' D' (f x) (g y)) (hi : ∀ m b n b', A m b n b' → D' (i m) (j n)) :
    Alike A' D' (s.ifFails f i) (t.ifFails g j) := by
  induction h with
  | done h => exact hf _ _ h
  | interrupted => exact .interrupted
  | step _ ih => exact .step ih
  | cut _ ih => exact .cut ih
  | answer ha _ ih => exact .done (hi _ _ _ _ ha)

theorem ends (h : Alike A D s t) : s.ends = t.ends := by
  induction h with
  | done h => rfl
  | interrupted => rfl
  | step _ ih => exact ih
  | cut _ ih => exact ih
  | answer _ _ ih => exact ih

theorem isCut (h : Alike A D s t) : s.isCut = t.isCut := by
  induction h with
  | done h => rfl
  | interrupted => rfl
  | step _ ih => exact ih
  | cut _ ih => rfl
  | answer _ _ ih => exact ih

theorem answers (h : Alike A D s t) :
    List.Forall₂ (fun p q => A p.1 p.2 q.1 q.2) s.answers t.answers := by
  induction h with
  | done h => exact .nil
  | interrupted => exact .nil
  | step _ ih => exact ih
  | cut _ ih => exact ih
  | answer ha _ ih => exact .cons ha ih

end Trace.Alike

structure GoalRel (R : Var → Var → Prop) (o : Nat) (g g' : Goal) : Prop where
  term : g.term.Rel R g'.term
  tame : g.term.Tame
  depth : g.depth = g'.depth + o

/-- Answers that a renaming relates which goes on from `R`, reached from scopes `m` and `n`. The
bindings `b` that the first search started from are kept. -/
structure Copied (R : Var → Var → Prop) (m n : Nat) (b : Bindings) (m' : Nat)
    (c : Bindings) (n' : Nat) (c' : Bindings) : Prop where
  le : m ≤ m'
  le' : n ≤ n'
  kept : b.Extends c
  linked : ∃ R', (∀ v w, R v w → R' v w) ∧ Linked R' m' n' c c'

/-- What two searches from scopes `m` and `n` keep at their ends: none of those scopes is given out
again. -/
structure Over (κ : Counting ε) (κ' : Counting δ) (m n : Nat) (x : ε) (y : δ) : Prop where
  left : ∀ m' ≤ m, m' ≤ κ.resume m' x
  right : ∀ n' ≤ n, n' ≤ κ'.resume n' y

variable {R S : Var → Var → Prop} {o m n m' n' depth depth' : Nat} {b b' b₁ : Bindings}
  {gs gs' rest rest' : List Goal} {κ : Counting ε} {κ' : Counting δ} {e e' : Engine} {next : Next ε}
  {next' : Next δ} {p : String} {args args' : List Term}

theorem GoalRel.mono (h : ∀ v w, R v w → S v w) (hg : List.Forall₂ (GoalRel R o) gs gs') :
    List.Forall₂ (GoalRel S o) gs gs' :=
  hg.imp fun _ _ hgg => ⟨hgg.term.mono h, hgg.tame, hgg.depth⟩

theorem Copied.mono (hR : ∀ v w, R v w → S v w) (hm : m ≤ m') (hn : n ≤ n') (hb : b.Extends b₁)
    {k k' : Nat} {c c' : Bindings} (h : Copied S m' n' b₁ k c k' c') :
    Copied R m n b k c k' c' := by
  obtain ⟨R', hR', hl⟩ := h.linked
  exact ⟨Nat.le_trans hm h.le, Nat.le_trans hn h.le', hb.trans h.kept, R',
    fun v w hvw => hR' v w (hR v w hvw), hl⟩

theorem Over.mono (hm : m ≤ m') (hn : n ≤ n') {x : ε} {y : δ} (h : Over κ κ' m' n' x y) :
    Over κ κ' m n x y :=
  ⟨fun _ hk => h.left _ (Nat.le_trans hk hm), fun _ hk => h.right _ (Nat.le_trans hk hn)⟩

theorem over_finish (hm : m ≤ m') (hn : n ≤ n') : Over κ κ' m n (κ.finish m') (κ'.finish n') :=
  ⟨fun _ hk => κ.le_resume (Nat.le_trans hk hm), fun _ hk => κ'.le_resume (Nat.le_trans hk hn)⟩

abbrev AlikeFrom (κ : Counting ε) (κ' : Counting δ) (R : Var → Var → Prop) (m n : Nat)
    (b : Bindings) : Trace ε → Trace δ → Prop :=
  Trace.Alike (Copied R m n b) (Over κ κ' m n)

theorem AlikeFrom.mono (hR : ∀ v w, R v w → S v w) (hm : m ≤ m') (hn : n ≤ n') (hb : b.Extends b₁)
    {s : Trace ε} {t : Trace δ} (h : AlikeFrom κ κ' S m' n' b₁ s t) : AlikeFrom κ κ' R m n b s t :=
  h.imp (fun _ _ _ _ => Copied.mono hR hm hn hb) fun _ _ => Over.mono hm hn

theorem AlikeFrom.resume (hm : m ≤ m') (hn : n ≤ n') {s : Trace ε} {t : Trace δ}
    (h : AlikeFrom κ κ' R m' n' b s t) : AlikeFrom κ κ' R m n b s t :=
  h.mono (fun _ _ => id) hm hn (.refl b)

def NextAlike (κ : Counting ε) (κ' : Counting δ) (o : Nat) (next : Next ε) (next' : Next δ) :
    Prop :=
  ∀ {R : Var → Var → Prop} {m n : Nat} {b b' : Bindings} {gs gs' : List Goal}, Linked R m n b b' →
    List.Forall₂ (GoalRel R o) gs gs' → AlikeFrom κ κ' R m n b (next m b gs) (next' n b' gs')

theorem goalRel_body (hd : depth = depth' + o) (h : ∀ name, R ⟨name, m⟩ ⟨name, n⟩) {c : Clause}
    (hc : ∀ g ∈ c.body, g.Tame) :
    List.Forall₂ (GoalRel R o) ((c.rename m).body.map (⟨·, depth + 1⟩))
      ((c.rename n).body.map (⟨·, depth' + 1⟩)) := by
  obtain ⟨head, body⟩ := c
  simp only [Clause.rename, Term.renameList_eq_map, List.map_map]
  induction body with
  | nil => exact .nil
  | cons g gs ih =>
    have hg := (hc g (by simp)).rename m
    refine .cons ⟨Term.rel_rename h g, hg, ?_⟩ (ih fun g' hg' => hc g' (by simp [hg']))
    show depth + 1 = depth' + 1 + o
    omega

theorem attempt_alike (hκ : κ.Plain) (hκ' : κ'.Plain) (hnext : NextAlike κ κ' o next next')
    (h : Linked R m n b b') (hargs : Term.RelAll R args args') (hflat : args.all Term.isFlat)
    (hd : depth = depth' + o) (hg : List.Forall₂ (GoalRel R o) rest rest') {c : Clause}
    (hhead : ∃ p args, c.head = .apply p args ∧ args.all Term.isFlat)
    (hbody : ∀ g ∈ c.body, g.Tame) :
    AlikeFrom κ κ' R m n b (attempt κ next m b (.apply p args) depth rest c)
      (attempt κ' next' n b' (.apply p args') depth' rest' c) := by
  obtain ⟨q, hs, hhead, hhflat⟩ := hhead
  have hold : ∀ v w, R v w → Linked.fresh R m n v w := fun _ _ => Linked.fresh_of_rel
  have hnew : ∀ name, Linked.fresh R m n ⟨name, m + 1⟩ ⟨name, n + 1⟩ :=
    fun name => Linked.fresh_new name
  have hhflat' := (Term.all_isFlat_renameList (m + 1) hs).trans hhflat
  have hu :=
    h.extend.unify?_apply p q (hargs.mono hold) (Term.relAll_renameList hnew hs) hflat hhflat'
  have hrename : ∀ k, (c.rename k).head = .apply q (Term.renameList k hs) := fun k => by
    rw [Clause.rename, hhead, Term.apply_rename]
  rw [attempt_plain hκ, attempt_plain hκ', hrename, hrename]
  cases hb : b.unify? (.apply p args) (.apply q (Term.renameList (m + 1) hs)) with
  | none =>
    rw [hb] at hu
    rw [rel_none hu]
    exact .done (over_finish (Nat.le_succ m) (Nat.le_succ n))
  | some b₁ =>
    rw [hb] at hu
    obtain ⟨b₂, hb', hl⟩ := rel_some hu
    rw [hb']
    have hgoals := List.rel_append (goalRel_body hd hnew hbody) (GoalRel.mono hold hg)
    have hkept : b.Extends b₁ := by
      rw [Bindings.unify?_apply h.left p q hflat hhflat'] at hb
      split at hb
      · exact (h.left.unifyAll hflat hhflat' hb).2
      · cases hb
    exact AlikeFrom.mono hold (Nat.le_succ m) (Nat.le_succ n) hkept (hnext hl hgoals)

theorem attempts_alike (hκ : κ.Plain) (hκ' : κ'.Plain) (hnext : NextAlike κ κ' o next next')
    (hargs : Term.RelAll R args args') (hflat : args.all Term.isFlat) (hd : depth = depth' + o)
    (hg : List.Forall₂ (GoalRel R o) rest rest') {cs : List Clause}
    (hheads : ∀ c ∈ cs, ∃ p args, c.head = .apply p args ∧ args.all Term.isFlat)
    (hbodies : ∀ c ∈ cs, ∀ g ∈ c.body, g.Tame) (h : Linked R m n b b') :
    AlikeFrom κ κ' R m n b (attempts κ next b (.apply p args) depth rest cs m)
      (attempts κ' next' b' (.apply p args') depth' rest' cs n) := by
  induction cs generalizing m n with
  | nil => exact .done (over_finish (Nat.le_refl m) (Nat.le_refl n))
  | cons c cs ih =>
    have hfirst :=
      attempt_alike hκ hκ' hnext h hargs hflat hd hg (hheads c (by simp))
        (hbodies c (by simp)) (p := p)
    refine hfirst.andThen fun x y hxy => ?_
    have hm := hxy.left m (Nat.le_refl m)
    have hn := hxy.right n (Nat.le_refl n)
    refine AlikeFrom.resume hm hn ?_
    exact ih (fun c' hc' => hheads c' (by simp [hc'])) (fun c' hc' =>
      hbodies c' (by simp [hc'])) (h.mono hm hn)

theorem called_alike (hκ : κ.Plain) (hκ' : κ'.Plain) (hprog : e.Functionless)
    (hshift : Engine.Shifted o e e') (hnext : NextAlike κ κ' o next next') (h : Linked R m n b b')
    (hargs : Term.RelAll R args args') (hflat : args.all Term.isFlat) (s : Signature)
    (hd : depth = depth' + o) (hg : List.Forall₂ (GoalRel R o) rest rest') :
    AlikeFrom κ κ' R m n b (called κ e next m b (.apply p args) s depth rest)
      (called κ' e' next' n b' (.apply p args') s depth' rest') := by
  unfold called Engine.clausesOf
  rw [hshift.library, hshift.database]
  split
  · have hcall := hprog.foreign.call h.unique s (h.resolveAll hargs hflat)
    unfold foreign?
    rw [hshift.library, Term.args_apply, Term.args_apply]
    cases hc : e.library.call s (args.map b.resolve) with
    | none =>
      rw [hc] at hcall
      rw [rel_none hcall]
      exact .done (over_finish (Nat.le_refl m) (Nat.le_refl n))
    | some es =>
      rw [hc] at hcall
      obtain ⟨es', hc', hes⟩ := rel_some hcall
      have hequate := equate_linked h hes
      rw [hc']
      dsimp only [Option.bind_some]
      cases hb : equate? b es with
      | none =>
        rw [hb] at hequate
        rw [rel_none hequate]
        exact .done (over_finish (Nat.le_refl m) (Nat.le_refl n))
      | some b₁ =>
        rw [hb] at hequate
        obtain ⟨b₂, hb', hl⟩ := rel_some hequate
        rw [hb']
        have hkept := (tidy_equate h.left (RelPair.flat_of_mem hes) hb).2
        exact AlikeFrom.mono (fun _ _ => id) (Nat.le_refl m) (Nat.le_refl n) hkept (hnext hl hg)
  · have hdepth : e.limits.depth ≤ depth ↔ e'.limits.depth ≤ depth' := by
      rw [hshift.depth, hd]; omega
    by_cases hcut : e.limits.depth ≤ depth
    · rw [if_pos hcut, if_pos (hdepth.mp hcut)]
      exact .cut (.done (over_finish (Nat.le_refl m) (Nat.le_refl n)))
    · rw [if_neg hcut, if_neg fun hc => hcut (hdepth.mpr hc)]
      exact attempts_alike hκ hκ' hnext hargs hflat hd hg (hprog.heads s) (hprog.bodies s) h

theorem work_alike (hκ : κ.Plain) (hκ' : κ'.Plain) (hprog : e.Functionless)
    (hshift : Engine.Shifted o e e') (hnext : NextAlike κ κ' o next next') (h : Linked R m n b b')
    {g g' : Goal} (hgg : GoalRel R o g g') (hg : List.Forall₂ (GoalRel R o) rest rest') :
    AlikeFrom κ κ' R m n b (work κ e next m b g rest) (work κ' e' next' n b' g' rest') := by
  have hwalk := h.walk hgg.term
  have htask := task_rel hwalk
  have htame := (hgg.tame.walk h.left).task
  unfold work
  generalize ht : task (b.walk g.term) = t at htask htame
  generalize ht' : task (b'.walk g'.term) = t' at htask
  cases htask with
  | done => exact hnext h hg
  | failing => exact .done (over_finish (Nat.le_refl m) (Nat.le_refl n))
  | both hx hy => exact hnext h (.cons ⟨hx, htame.1, hgg.depth⟩ (.cons ⟨hy, htame.2, hgg.depth⟩ hg))
  | either hx hy =>
    refine Trace.Alike.andThen (hnext h (.cons ⟨hx, htame.1, hgg.depth⟩ hg)) fun x y hxy => ?_
    have hm := hxy.left m (Nat.le_refl m)
    have hn := hxy.right n (Nat.le_refl n)
    refine AlikeFrom.resume hm hn ?_
    exact hnext (h.mono hm hn) (.cons ⟨hy, htame.2, hgg.depth⟩ hg)
  | negation hx =>
    refine Trace.Alike.ifFails (hnext h (.cons ⟨hx, htame, hgg.depth⟩ .nil)) (fun x y hxy => ?_) ?_
    · have hm := hxy.left m (Nat.le_refl m)
      have hn := hxy.right n (Nat.le_refl n)
      exact AlikeFrom.resume hm hn (hnext (h.mono hm hn) hg)
    · exact fun _ _ _ _ ha => over_finish ha.le ha.le'
  | comparison op hx hy =>
    dsimp only
    rw [compares_rel h.unique op (h.resolve hx htame.1) (h.resolve hy htame.2)]
    split
    · exact hnext h hg
    · exact .done (over_finish (Nat.le_refl m) (Nat.le_refl n))
  | call s =>
    obtain ⟨p, args, hw, hflat⟩ := htame
    rw [hw] at hwalk
    obtain ⟨args', hw', hargs⟩ := Term.rel_apply hwalk
    rw [hw, hw']
    exact called_alike hκ hκ' hprog hshift hnext h hargs hflat s hgg.depth hg

/-- Two searches for goals that a renaming relates come upon the same things. -/
theorem solve_alike (hκ : κ.Plain) (hκ' : κ'.Plain) (hprog : e.Functionless)
    (hshift : Engine.Shifted o e e') (k : Nat) :
    NextAlike κ κ' o (solve κ e k) (solve κ' e' k) := by
  induction k with
  | zero => intro _ _ _ _ _ _ _ _ _; exact .interrupted
  | succ k ih =>
    intro R m n b b' gs gs' h hg
    cases hg with
    | nil =>
      refine .answer ⟨Nat.le_refl m, Nat.le_refl n, .refl b, R, fun _ _ => id, h⟩ ?_
      exact .done (over_finish (Nat.le_refl m) (Nat.le_refl n))
    | cons hgg hg => exact .step (work_alike hκ hκ' hprog hshift ih h hgg hg)

def Same (v w : Var) : Prop := v = w ∧ v.scope = 0

theorem solveGoal_alike (hκ : κ.Plain) (hκ' : κ'.Plain) (hprog : e.Functionless) {goal : Term}
    (htame : goal.Tame) (hscope : ∀ v ∈ goal.occurrences, v.scope = 0) (k : Nat) :
    AlikeFrom κ κ' Same 0 0 .empty (solveGoal κ e k goal) (solveGoal κ' e k goal) := by
  have hlinked : Linked Same 0 0 .empty .empty := by
    refine .empty ⟨?_, ?_⟩ (by rintro v _ ⟨rfl, hv⟩; simp [hv])
    · exact fun v v' w h h' => h.1.trans h'.1.symm
    · exact fun v w w' h h' => h.1.symm.trans h'.1
  refine solve_alike hκ hκ' hprog (o := 0) ⟨rfl, rfl, rfl⟩ k hlinked (.cons ⟨?_, htame, rfl⟩ .nil)
  exact Term.rel_self fun v hv => ⟨rfl, hscope v hv⟩

end Reference

end GraphRules
