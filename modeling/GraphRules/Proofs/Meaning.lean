import GraphRules.Proofs.Tasks
import GraphRules.Proofs.Valuation

/-! The meaning of goals in an interpretation of the predicates, and the lists of goals that are
safe to work on from left to right: a variable that is known when a negated goal is reached has a
fixed value there. -/
namespace GraphRules

open Search

abbrev Interpretation := String → List Constant → Prop

def Search.Task.rename (m : Nat) : Task → Task
  | .both a b => .both (a.rename m) (b.rename m)
  | .either a b => .either (a.rename m) (b.rename m)
  | .negation a => .negation (a.rename m)
  | .comparison op a b => .comparison op (a.rename m) (b.rename m)
  | k => k

theorem Search.task_rename (m : Nat) (t : Term) : task (t.rename m) = (task t).rename m := by
  cases t with
  | atom a =>
    show task (.atom a) = _
    rw [task_atom]
    split_ifs <;> rfl
  | number x => rfl
  | var v => rfl
  | compound f as =>
    match as with
    | [] => simp only [Term.rename, Term.renameList]; rw [task_other f (by simp) (by simp)]; rfl
    | [a] =>
      simp only [Term.rename, Term.renameList, task_one]
      split <;> rfl
    | [a, b] =>
      simp only [Term.rename, Term.renameList, task_two]
      split_ifs <;> rfl
    | a :: b :: c :: as =>
      simp only [Term.rename, Term.renameList]
      rw [task_other f (by simp) (by simp), task_other f (by simp) (by simp)]
      simp [Task.rename, Term.renameList_eq_map]

theorem Term.sizes_lt_of_task {t : Term} (ts : List Term) :
    match task t with
    | .both a b => Term.sizes (a :: b :: ts) < Term.sizes (t :: ts)
    | .either a b => Term.sizes (a :: ts) < Term.sizes (t :: ts) ∧
      Term.sizes (b :: ts) < Term.sizes (t :: ts)
    | .negation a => Term.sizes [a] < Term.sizes (t :: ts)
    | _ => True := by
  have hshape := task_shape t
  cases h : task t with
  | both a b => rw [h] at hshape; subst hshape; simp only [Term.sizes, Term.size]; omega
  | either a b =>
    rw [h] at hshape
    subst hshape
    have := a.size_pos
    have := b.size_pos
    simp only [Term.sizes, Term.size]
    omega
  | negation a => rw [h] at hshape; subst hshape; simp only [Term.sizes, Term.size]; omega
  | _ => trivial

theorem Term.occurrences_args {t : Term} {v : Var} (h : v ∈ Term.occurrencesList t.args) :
    v ∈ t.occurrences := by
  cases t with
  | compound f as => exact h
  | atom a => cases h
  | number x => cases h
  | var w => cases h

def Term.names (t : Term) : Set String := {x | ∃ v ∈ t.occurrences, v.name = x}

theorem Term.names_rename (m : Nat) (t : Term) : (t.rename m).names = t.names := by
  simp [Term.names, Term.occurrences_rename]

abbrev Assignment := String → Constant

def Assignment.toValuation (ρ : Assignment) : Valuation := fun v => ρ v.name

theorem Assignment.constant_rename (ρ : Assignment) (m : Nat) (t : Term) :
    (t.rename m).constant ρ.toValuation = t.constant ρ.toValuation := by
  cases t <;> rfl

theorem Assignment.map_constant_rename (ρ : Assignment) (m : Nat) (t : Term) :
    (t.rename m).args.map (Term.constant ρ.toValuation) =
      t.args.map (Term.constant ρ.toValuation) := by
  cases t with
  | compound f as =>
    simp only [Term.rename, Term.args, Term.renameList_eq_map, List.map_map]
    exact List.map_congr_left fun a _ => ρ.constant_rename m a
  | atom a => rfl
  | number x => rfl
  | var v => rfl

namespace Interpretation

/-- Goals that hold under an assignment. A negated goal holds if it does under no values of its own
variables. These are the variables that are not in `bound`, where those of the calls before it are.
-/
def Holds (I : Interpretation) (ρ : Assignment) (bound : Set String) : List Term → Prop
  | [] => True
  | t :: ts =>
    match _h : task t with
    | .done => I.Holds ρ bound ts
    | .failing => False
    | .both a b => I.Holds ρ bound (a :: b :: ts)
    | .either a b => I.Holds ρ bound (a :: ts) ∨ I.Holds ρ bound (b :: ts)
    | .negation a =>
      (¬ ∃ ρ' : Assignment, (∀ v ∈ a.occurrences, v.name ∈ bound → ρ' v.name = ρ v.name) ∧
        I.Holds ρ' bound [a]) ∧
        I.Holds ρ bound ts
    | .comparison op a b =>
      compares op (a.constant ρ.toValuation).toTerm (b.constant ρ.toValuation).toTerm ∧
        I.Holds ρ bound ts
    | .call s =>
      I s.name (t.args.map (Term.constant ρ.toValuation)) ∧ I.Holds ρ (bound ∪ t.names) ts
termination_by ts => Term.sizes ts
decreasing_by
  all_goals first
    | (have hlt := Term.sizes_lt_of_task (t := t) ts; rw [_h]
      at hlt; first | exact hlt | exact hlt.1 | exact hlt.2)
    | (have hpos := t.size_pos; simp only [Term.sizes]; omega)

variable {I : Interpretation} {ρ ρ' : Assignment} {bound bound' : Set String}
  {t a b : Term} {ts : List Term}

@[simp] theorem holds_nil : I.Holds ρ bound [] ↔ True := by rw [Holds]

theorem holds_done (h : task t = .done) : I.Holds ρ bound (t :: ts) ↔ I.Holds ρ bound ts := by
  rw [Holds]; split <;> simp_all

theorem holds_failing (h : task t = .failing) : ¬ I.Holds ρ bound (t :: ts) := by
  rw [Holds]; split <;> simp_all

theorem holds_both (h : task t = .both a b) :
    I.Holds ρ bound (t :: ts) ↔ I.Holds ρ bound (a :: b :: ts) := by
  rw [Holds]; split <;> simp_all

theorem holds_either (h : task t = .either a b) :
    I.Holds ρ bound (t :: ts) ↔ I.Holds ρ bound (a :: ts) ∨ I.Holds ρ bound (b :: ts) := by
  rw [Holds]; split <;> simp_all

theorem holds_negation (h : task t = .negation a) :
    I.Holds ρ bound (t :: ts) ↔
      (¬ ∃ ρ' : Assignment, (∀ v ∈ a.occurrences, v.name ∈ bound → ρ' v.name = ρ v.name) ∧
        I.Holds ρ' bound [a]) ∧ I.Holds ρ bound ts := by
  rw [Holds]; split <;> simp_all

theorem holds_comparison {op : String} (h : task t = .comparison op a b) :
    I.Holds ρ bound (t :: ts) ↔
      compares op (a.constant ρ.toValuation).toTerm (b.constant ρ.toValuation).toTerm ∧
      I.Holds ρ bound ts := by
  rw [Holds]; split <;> simp_all

theorem holds_call {s : Signature} (h : task t = .call s) :
    I.Holds ρ bound (t :: ts) ↔
      I s.name (t.args.map (Term.constant ρ.toValuation)) ∧
        I.Holds ρ (bound ∪ t.names) ts := by
  rw [Holds]; split <;> simp_all

/-- Induction on lists of goals, by what the first one asks for. -/
theorem goals_induction {motive : List Term → Prop} (nil : motive [])
    (cons : ∀ t ts, motive ts →
      (match task t with
        | .both a b => motive (a :: b :: ts)
        | .either a b => motive (a :: ts) ∧ motive (b :: ts)
        | .negation a => motive [a]
        | _ => True) → motive (t :: ts)) (ts : List Term) : motive ts := by
  induction h : Term.sizes ts using Nat.strongRecOn generalizing ts with
  | ind n ih =>
    subst h
    cases ts with
    | nil => exact nil
    | cons t ts =>
      have hlt := Term.sizes_lt_of_task (t := t) ts
      have hts : Term.sizes ts < Term.sizes (t :: ts) := by
        have := t.size_pos
        simp only [Term.sizes]
        omega
      refine cons t ts (ih _ hts ts rfl) ?_
      cases htask : task t with
      | both a b => rw [htask] at hlt; exact ih _ hlt _ rfl
      | either a b => rw [htask] at hlt; exact ⟨ih _ hlt.1 _ rfl, ih _ hlt.2 _ rfl⟩
      | negation a => rw [htask] at hlt; exact ih _ hlt _ rfl
      | _ => trivial

/-- Only the variables of the goals matter. -/
theorem holds_congr (hρ : ∀ v ∈ Term.occurrencesList ts, ρ v.name = ρ' v.name)
    (hb : ∀ v ∈ Term.occurrencesList ts, v.name ∈ bound ↔ v.name ∈ bound') :
    I.Holds ρ bound ts ↔ I.Holds ρ' bound' ts := by
  induction ts using goals_induction generalizing ρ ρ' bound bound' with
  | nil => simp
  | cons t ts ih hcase =>
    have hrest :=
      ih (fun v hv => hρ v (List.mem_append_right _ hv)) (fun v hv =>
        hb v (List.mem_append_right _ hv))
    cases htask : task t with
    | done => rw [holds_done htask, holds_done htask, hrest]
    | failing => exact iff_of_false (holds_failing htask) (holds_failing htask)
    | both a b =>
      rw [htask] at hcase
      obtain rfl := eq_of_task_both htask
      rw [holds_both htask, holds_both htask]
      exact hcase (fun v hv =>
        hρ v (by simpa [Term.occurrencesList, Term.occurrences, or_assoc] using hv))
        fun v hv => hb v (by simpa [Term.occurrencesList, Term.occurrences, or_assoc] using hv)
    | either a b =>
      rw [htask] at hcase
      obtain rfl := eq_of_task_either htask
      rw [holds_either htask, holds_either htask]
      refine or_congr (hcase.1 (fun v hv => hρ v ?_) fun v hv => hb v ?_)
        (hcase.2 (fun v hv => hρ v ?_) fun v hv => hb v ?_)
      all_goals
        simp only [Term.occurrencesList, Term.occurrences, List.mem_append] at hv ⊢
        tauto
    | negation a =>
      rw [htask] at hcase
      obtain rfl := eq_of_task_negation htask
      rw [holds_negation htask, holds_negation htask, hrest]
      have hin : ∀ v ∈ a.occurrences, v ∈ Term.occurrencesList (.compound "not" [a] :: ts) :=
        fun v hv => by
        simp [Term.occurrencesList, Term.occurrences, hv]
      have hin' : ∀ v ∈ Term.occurrencesList [a], v.name ∈ bound ↔ v.name ∈ bound' := fun v hv =>
        hb v (hin v (by simpa [Term.occurrencesList] using hv))
      refine and_congr_left' (not_congr (exists_congr fun ρ₁ => and_congr ?_ ?_))
      · exact forall₂_congr fun v hv => by rw [hb v (hin v hv), hρ v (hin v hv)]
      · exact hcase (fun _ _ => rfl) hin'
    | comparison op a b =>
      have hshape := task_shape t
      rw [htask] at hshape
      obtain rfl := hshape
      have ha : a.constant ρ.toValuation = a.constant ρ'.toValuation :=
        Term.constant_congr fun v hv =>
        hρ v (by simp [Term.occurrencesList, Term.occurrences, hv])
      have hb : b.constant ρ.toValuation = b.constant ρ'.toValuation :=
        Term.constant_congr fun v hv =>
        hρ v (by simp [Term.occurrencesList, Term.occurrences, hv])
      rw [holds_comparison htask, holds_comparison htask, hrest, ha, hb]
    | call s =>
      have hargs : t.args.map (Term.constant ρ.toValuation) =
          t.args.map (Term.constant ρ'.toValuation) :=
        Term.map_constant_congr fun v hv => hρ v (List.mem_append_left _ (Term.occurrences_args hv))
      rw [holds_call htask, holds_call htask, hargs]
      refine and_congr_right fun _ => ih (fun v hv => hρ v (List.mem_append_right _ hv)) fun v hv =>
        ?_
      rw [Set.mem_union, Set.mem_union, hb v (List.mem_append_right _ hv)]

/-- The scope that the variables are in does not matter. -/
theorem holds_rename (m : Nat) : I.Holds ρ bound (Term.renameList m ts) ↔ I.Holds ρ bound ts := by
  induction ts using goals_induction generalizing ρ bound with
  | nil => simp [Term.renameList]
  | cons t ts ih hcase =>
    have htask := task_rename m t
    rw [Term.renameList]
    cases h : task t with
    | done => rw [h] at htask; rw [holds_done htask, holds_done h, ih]
    | failing => rw [h] at htask; exact iff_of_false (holds_failing htask) (holds_failing h)
    | both a b => rw [h] at htask hcase; rw [holds_both htask, holds_both h]; exact hcase
    | either a b =>
      rw [h] at htask hcase; rw [holds_either htask, holds_either h]; exact or_congr hcase.1 hcase.2
    | negation a =>
      rw [h] at htask hcase
      rw [holds_negation htask, holds_negation h, ih]
      refine and_congr_left' (not_congr (exists_congr fun ρ₁ => and_congr ?_ hcase))
      rw [Term.occurrences_rename]
      simp
    | comparison op a b =>
      rw [h] at htask
      rw [holds_comparison htask, holds_comparison h, ih, Assignment.constant_rename,
        Assignment.constant_rename]
    | call s =>
      rw [h] at htask
      rw [holds_call htask, holds_call h, ih, Assignment.map_constant_rename, Term.names_rename]

end Interpretation

/-- Goals that may be worked on from left to right. The calls are of predicates in `P`, and a
variable of a negated goal that is in `seen` is in `bound` as well, or a call before has it. -/
inductive Safe (P : String → Prop) (negations : Bool) (seen : Set String) :
    Set String → List Term → Prop
  | nil (bound : Set String) : Safe P negations seen bound []
  | done {bound : Set String} {t : Term} {ts : List Term} (h : task t = .done)
    (hts : Safe P negations seen bound ts) : Safe P negations seen bound (t :: ts)
  | failing {t : Term} (bound : Set String) (ts : List Term) (h : task t = .failing)
    (hv : ∀ v, t ≠ .var v) : Safe P negations seen bound (t :: ts)
  | both {bound : Set String} {t a b : Term} {ts : List Term} (h : task t = .both a b)
    (hts : Safe P negations seen bound (a :: b :: ts)) : Safe P negations seen bound (t :: ts)
  | either {bound : Set String} {t a b : Term} {ts : List Term} (h : task t = .either a b)
    (ha : Safe P negations seen bound (a :: ts)) (hb : Safe P negations seen bound (b :: ts)) :
    Safe P negations seen bound (t :: ts)
  | negation {bound : Set String} {t a : Term} {ts : List Term} (h : task t = .negation a)
    (hn : negations) (hv : ∀ v ∈ a.occurrences, v.name ∈ seen → v.name ∈ bound)
    (ha : Safe P negations seen bound [a]) (hts : Safe P negations seen bound ts) :
    Safe P negations seen bound (t :: ts)
  | call {bound : Set String} {p : String} {args ts : List Term} (hp : P p)
    (hargs : args.all Term.isFlat)
    (hts : Safe P negations seen (bound ∪ (Term.apply p args).names) ts) :
    Safe P negations seen bound (.apply p args :: ts)

theorem Safe.rename {P : String → Prop} {negations : Bool} {seen bound : Set String}
    {ts : List Term} (h : Safe P negations seen bound ts) (m : Nat) :
    Safe P negations seen bound (Term.renameList m ts) := by
  induction h with
  | nil bound => exact .nil bound
  | done h _ ih => exact .done (by rw [task_rename, h]; rfl) ih
  | @failing t bound ts h hv =>
    refine .failing bound _ (by rw [task_rename, h]; rfl) fun v e => ?_
    cases t with
    | var w => exact hv w rfl
    | atom a => cases e
    | number x => cases e
    | compound f as => cases e
  | both h _ ih => exact .both (by rw [task_rename, h]; rfl) ih
  | either h _ _ iha ihb => exact .either (by rw [task_rename, h]; rfl) iha ihb
  | negation h hn hv _ _ iha ihts =>
    refine .negation (by rw [task_rename, h]; rfl) hn ?_ iha ihts
    rw [Term.occurrences_rename]
    intro v hv'
    obtain ⟨w, hw, rfl⟩ := List.mem_map.mp hv'
    exact hv w hw
  | @call bound p args ts hp hargs _ ih =>
    rw [Term.renameList, Term.apply_rename]
    have hnames : (Term.apply p (Term.renameList m args)).names = (Term.apply p args).names := by
      rw [← Term.apply_rename, Term.names_rename]
    exact .call hp ((Term.all_isFlat_renameList m args).trans hargs) (hnames ▸ ih)

end GraphRules
