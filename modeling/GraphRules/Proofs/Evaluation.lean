import GraphRules.Proofs.Alternatives
import GraphRules.Proofs.PlainScripts

/-! The literals of a script as formulas of first-order logic, and what is left of this reading in
their lowered form. Negations may be nested; what matters for one of them is the path that leads to
it, where an alternative is chosen of every formula on the way. -/
namespace GraphRules

open Check Search

mutual

def Literal.size : Literal → Nat
  | .call _ => 1
  | .negated f _ => f.size + 1
  | .compare _ => 1
  | .group f => f.size + 1

def Formula.size : Formula → Nat
  | .mk ds _ => Formula.sizeAny ds

def Formula.sizeAny : List (List Literal) → Nat
  | [] => 0
  | c :: cs => Literal.sizeAll c + Formula.sizeAny cs

def Literal.sizeAll : List Literal → Nat
  | [] => 0
  | l :: ls => l.size + Literal.sizeAll ls

end

theorem Literal.sizeAll_append (ls ls' : List Literal) :
    sizeAll (ls ++ ls') = sizeAll ls + sizeAll ls' := by
  induction ls with
  | nil => simp [sizeAll]
  | cons l ls ih => rw [List.cons_append, sizeAll, sizeAll, ih, Nat.add_assoc]

theorem Literal.sizeAll_lt (l : Literal) (ls : List Literal) : sizeAll ls < sizeAll (l :: ls) := by
  have : 0 < l.size := by cases l <;> simp [size]
  rw [sizeAll]
  omega

theorem Literal.varsAll_append (ls ls' : List Literal) :
    varsAll (ls ++ ls') = varsAll ls ++ varsAll ls' := by
  induction ls with
  | nil => rfl
  | cons l ls ih => rw [List.cons_append, varsAll, varsAll, ih, List.append_assoc]

theorem Check.literalsNames_append (ls ls' : List Literal) :
    literalsNames (ls ++ ls') = literalsNames ls ++ literalsNames ls' := by
  induction ls with
  | nil => rfl
  | cons l ls ih => rw [List.cons_append, literalsNames, literalsNames, ih, List.append_assoc]

mutual

theorem Literal.of_mem_alternatives : ∀ {l : Literal} {a : List Literal}, a ∈ l.alternatives →
    Literal.sizeAll a ≤ l.size ∧ Literal.varsAll a ⊆ l.vars ∧ literalsNames a ⊆ literalNames l
  | .call c, a, h => by
    obtain rfl := List.mem_singleton.mp h
    simp [Literal.sizeAll, Literal.varsAll, literalsNames]
  | .negated f s, a, h => by
    obtain rfl := List.mem_singleton.mp h
    simp [Literal.sizeAll, Literal.varsAll, literalsNames]
  | .compare c, a, h => by
    obtain rfl := List.mem_singleton.mp h
    simp [Literal.sizeAll, Literal.varsAll, literalsNames]
  | .group f, a, h => by
    obtain ⟨hsize, hvars⟩ := Formula.of_mem_alternatives (f := f) h
    exact ⟨Nat.le_succ_of_le hsize, hvars⟩

theorem Formula.of_mem_alternatives : ∀ {f : Formula} {a : List Literal}, a ∈ f.alternatives →
    Literal.sizeAll a ≤ f.size ∧ Literal.varsAll a ⊆ f.vars ∧ literalsNames a ⊆ formulaNames f
  | .mk ds _, _, h => Formula.of_mem_alternativesAny (show _ ∈ Formula.alternativesAny ds from h)

theorem Formula.of_mem_alternativesAny : ∀ {ds : List (List Literal)} {a : List Literal},
    a ∈ Formula.alternativesAny ds →
      Literal.sizeAll a ≤ Formula.sizeAny ds ∧ Literal.varsAll a ⊆ Formula.varsAll ds ∧
        literalsNames a ⊆ disjunctNames ds
  | [], _, h => by cases h
  | c :: cs, a, h => by
    rcases List.mem_append.mp h with h | h
    · obtain ⟨hsize, hvars, hnames⟩ := Literal.of_mem_alternativesAll h
      exact ⟨Nat.le_add_right_of_le hsize, List.subset_append_of_subset_left _ hvars,
        List.subset_append_of_subset_left _ hnames⟩
    · obtain ⟨hsize, hvars, hnames⟩ := Formula.of_mem_alternativesAny h
      exact ⟨Nat.le_add_left_of_le hsize, List.subset_append_of_subset_right _ hvars,
        List.subset_append_of_subset_right _ hnames⟩

theorem Literal.of_mem_alternativesAll : ∀ {ls a : List Literal}, a ∈ Literal.alternativesAll ls →
    Literal.sizeAll a ≤ Literal.sizeAll ls ∧ Literal.varsAll a ⊆ Literal.varsAll ls ∧
      literalsNames a ⊆ literalsNames ls
  | [], _, h => by
    obtain rfl := List.mem_singleton.mp h
    simp [Literal.sizeAll, Literal.varsAll, literalsNames]
  | l :: ls, a, h => by
    obtain ⟨x, hx, h⟩ := List.mem_flatMap.mp h
    obtain ⟨y, hy, rfl⟩ := List.mem_map.mp h
    obtain ⟨hsize, hvars, hnames⟩ := Literal.of_mem_alternatives hx
    obtain ⟨hsize', hvars', hnames'⟩ := Literal.of_mem_alternativesAll hy
    rw [Literal.sizeAll_append, Literal.varsAll_append, literalsNames_append]
    exact ⟨Nat.add_le_add hsize hsize',
      List.append_subset.mpr
        ⟨List.subset_append_of_subset_left _ hvars, List.subset_append_of_subset_right _ hvars'⟩,
      List.append_subset.mpr
        ⟨List.subset_append_of_subset_left _ hnames, List.subset_append_of_subset_right _ hnames'⟩⟩

end

/-- Whether an argument can stand for a constant. A wildcard can stand for any. -/
def ArgKind.Takes (ρ : Assignment) : ArgKind → Constant → Prop
  | .var x, c => ρ x = c
  | .wildcard, _ => True
  | .symbol s, c => .atom s = c
  | .quoted s, c => .atom s = c
  | .int n, c => .number (.int n) = c
  | .float x, c => .number (.float x) = c

/-- The literals of an alternative are true under an assignment. The literals in `before` stand to
their left on the path, and the variables in `outside` occur on it as well. A negated formula is
true if none of its alternatives is, whatever values are given to variables that occur nowhere else
on the path. -/
def Interpretation.AllTrue (I : Interpretation) (outside : List String) (ρ : Assignment)
    (before : List Literal) : List Literal → Prop
  | [] => True
  | l :: after =>
    (match _hl : l with
      | .call c => ∃ cs, List.Forall₂ (fun a x => a.kind.Takes ρ x) c.args cs ∧ I c.name cs
      | .compare c => ∃ x y, c.left.kind.Takes ρ x ∧ c.right.kind.Takes ρ y ∧
      compares c.op.symbol x.toTerm y.toTerm
      | .negated f _ =>
        ¬ ∃ a, ∃ _ha : a ∈ f.alternatives, ∃ ρ' : Assignment,
          (∀ x ∈ outside ++ Literal.varsAll before ++ Literal.varsAll after, ρ' x = ρ x) ∧
            I.AllTrue (outside ++ Literal.varsAll after) ρ' before a
      | .group f => ∃ a, ∃ _ha : a ∈ f.alternatives,
      I.AllTrue (outside ++ Literal.varsAll after) ρ before a) ∧
    I.AllTrue outside ρ (before ++ [l]) after
termination_by ls => Literal.sizeAll ls
decreasing_by
  · have := (Formula.of_mem_alternatives _ha).1
    simp only [Literal.sizeAll, Literal.size]
    omega
  · have := (Formula.of_mem_alternatives _ha).1
    simp only [Literal.sizeAll, Literal.size]
    omega
  · exact Literal.sizeAll_lt l after

/-- The rule of the check for negations holds for those as well that are inside others: a variable
that also occurs elsewhere on the path has to be in a call to the left on the path. -/
def Check.isGuarded (outside : List String) (before : List Literal) : List Literal → Bool
  | [] => true
  | l :: after =>
    (match _hl : l with
      | .negated f _ => f.alternatives.attach.all fun a =>
        (hazardsFrom (outside ++ Literal.varsAll after) before a.1).isEmpty &&
          isGuarded (outside ++ Literal.varsAll after) before a.1
      | .call _ => true
      | .compare _ => true
      | .group _ => true) && isGuarded outside (before ++ [l]) after
termination_by ls => Literal.sizeAll ls
decreasing_by
  · have := (Formula.of_mem_alternatives a.2).1
    simp only [Literal.sizeAll, Literal.size]
    omega
  · exact Literal.sizeAll_lt l after

namespace Interpretation

variable {I : Interpretation} {outside : List String} {ρ : Assignment} {before after : List Literal}

@[simp] theorem allTrue_nil : I.AllTrue outside ρ before [] ↔ True := by rw [AllTrue]

theorem allTrue_call {c : Call} :
    I.AllTrue outside ρ before (.call c :: after) ↔
      (∃ cs, List.Forall₂ (fun a x => a.kind.Takes ρ x) c.args cs ∧ I c.name cs) ∧
        I.AllTrue outside ρ (before ++ [.call c]) after := by
  rw [AllTrue]

theorem allTrue_negated {f : Formula} {s : Span} :
    I.AllTrue outside ρ before (.negated f s :: after) ↔
      (¬ ∃ a ∈ f.alternatives, ∃ ρ' : Assignment,
        (∀ x ∈ outside ++ Literal.varsAll before ++ Literal.varsAll after, ρ' x = ρ x) ∧
          I.AllTrue (outside ++ Literal.varsAll after) ρ' before a) ∧
        I.AllTrue outside ρ (before ++ [.negated f s]) after := by
  rw [AllTrue]
  simp only [exists_prop]

theorem allTrue_congr {J : Interpretation} (h : ∀ q ∈ literalsNames after, ∀ cs, I q cs ↔ J q cs) :
    I.AllTrue outside ρ before after ↔ J.AllTrue outside ρ before after := by
  induction hsize : Literal.sizeAll after using Nat.strongRecOn generalizing outside
    ρ before after with
  | ind n ih =>
    subst hsize
    cases after with
    | nil => simp
    | cons l after =>
      have hlt := Literal.sizeAll_lt l after
      have hafter : ∀ before, I.AllTrue outside ρ before after ↔
          J.AllTrue outside ρ before after := fun before =>
        ih _ hlt (fun q hq => h q (List.mem_append_right _ hq)) rfl
      have hinside : ∀ {f : Formula} {a : List Literal} {outside : List String} {ρ : Assignment},
          a ∈ f.alternatives → f.size < l.size → formulaNames f ⊆ literalNames l →
          (I.AllTrue outside ρ before a ↔ J.AllTrue outside ρ before a) := by
        intro f a outside ρ ha hf hnames
        obtain ⟨hsize, _, hnames'⟩ := Formula.of_mem_alternatives ha
        refine ih _ ?_ (fun q hq => h q (List.mem_append_left _ (hnames (hnames' hq)))) rfl
        simp only [Literal.sizeAll]
        omega
      cases l with
      | call c =>
        rw [allTrue_call, allTrue_call, hafter]
        refine and_congr_left' (exists_congr fun cs => and_congr_right' (h c.name ?_ cs))
        exact List.mem_append_left _ (List.mem_singleton_self _)
      | compare c => rw [AllTrue, AllTrue, hafter]
      | negated f s =>
        rw [allTrue_negated, allTrue_negated, hafter]
        refine and_congr_left' (not_congr (exists_congr fun a => and_congr_right fun ha =>
          exists_congr fun ρ' => ?_))
        exact and_congr_right' (hinside ha (Nat.lt_succ_self _) (List.Subset.refl _))
      | group f =>
        rw [AllTrue, AllTrue, hafter]
        refine and_congr_left' (exists_congr fun a => exists_congr fun ha => ?_)
        exact hinside ha (Nat.lt_succ_self _) (List.Subset.refl _)

end Interpretation

theorem Check.isGuarded_cons {outside : List String} {before after : List Literal} {l : Literal}
    (h : isGuarded outside before (l :: after)) : isGuarded outside (before ++ [l]) after := by
  cases l <;> rw [isGuarded, Bool.and_eq_true] at h <;> exact h.2

theorem Check.isGuarded_negated {outside : List String} {before after : List Literal} {f : Formula}
    {s : Span} (h : isGuarded outside before (.negated f s :: after)) {a : List Literal}
    (ha : a ∈ f.alternatives) :
    hazardsFrom (outside ++ Literal.varsAll after) before a = [] ∧
      isGuarded (outside ++ Literal.varsAll after) before a := by
  rw [isGuarded, Bool.and_eq_true] at h
  have hall := List.all_eq_true.mp h.1 ⟨a, ha⟩ (List.mem_attach _ _)
  rwa [Bool.and_eq_true, List.isEmpty_iff] at hall

section Splitting

variable {I : Interpretation} {ρ : Assignment} {bound : Set String}

/-- Goals may be replaced by others that mean the same, after any goals. -/
theorem Interpretation.holds_append_congr {α : Type} {ts : List Term} {us : α → List Term}
    {Q : α → Prop} (h : ∀ bound, I.Holds ρ bound ts ↔ ∃ y, Q y ∧ I.Holds ρ bound (us y))
    (xs : List Term) (bound : Set String) :
    I.Holds ρ bound (xs ++ ts) ↔ ∃ y, Q y ∧ I.Holds ρ bound (xs ++ us y) := by
  induction xs using goals_induction generalizing bound with
  | nil => exact h bound
  | cons t xs ih hcase =>
    rw [List.cons_append]
    simp only [List.cons_append]
    cases htask : task t with
    | done => simp only [holds_done htask]; exact ih bound
    | failing => simp [holds_failing htask]
    | both a b => rw [htask] at hcase; simp only [holds_both htask]; exact hcase bound
    | either a b =>
      rw [htask] at hcase
      simp only [holds_either htask]
      rw [show I.Holds ρ bound (a :: (xs ++ ts)) ↔ _ from hcase.1 bound,
        show I.Holds ρ bound (b :: (xs ++ ts)) ↔ _ from hcase.2 bound, ← exists_or]
      simp only [List.cons_append, and_or_left]
    | negation a =>
      simp only [holds_negation htask]
      rw [ih bound, ← exists_and_left]
      exact exists_congr fun y => and_left_comm
    | comparison op a b =>
      simp only [holds_comparison htask]
      rw [ih bound, ← exists_and_left]
      exact exists_congr fun y => and_left_comm
    | call s =>
      simp only [holds_call htask]
      rw [ih _, ← exists_and_left]
      exact exists_congr fun y => and_left_comm

theorem Term.Splits.holds_iff {t : Term} {tss : List (List Term)} (h : t.Splits tss)
    (rest : List Term) (bound : Set String) :
    I.Holds ρ bound (t :: rest) ↔ ∃ ts ∈ tss, I.Holds ρ bound (ts ++ rest) := by
  induction h generalizing rest bound with
  | leaf t => simp
  | done => simp [Interpretation.holds_done (t := .atom "true") rfl]
  | failing => simp [Interpretation.holds_failing (t := .atom "fail") rfl]
  | @both a b as bs _ _ iha ihb =>
    rw [Interpretation.holds_both (t := .compound "," [a, b]) rfl, iha]
    simp only [fun x => Interpretation.holds_append_congr (fun bound => ihb rest bound) x bound]
    simp only [Term.products, List.mem_flatMap, List.mem_map]
    constructor
    · rintro ⟨x, hx, y, hy, h⟩
      exact ⟨_, ⟨x, hx, y, hy, rfl⟩, by rwa [List.append_assoc]⟩
    · rintro ⟨_, ⟨x, hx, y, hy, rfl⟩, h⟩
      exact ⟨x, hx, y, hy, by rwa [List.append_assoc] at h⟩
  | @either a b as bs _ _ iha ihb =>
    rw [Interpretation.holds_either (t := .compound ";" [a, b]) rfl, iha, ihb]
    simp only [List.mem_append, or_and_right, exists_or]

end Splitting

variable {ws : List String} {as : List Arg} {ts : List Term} {ρ₁ ρ₂ : Assignment}

theorem Arg.Lowers.takes {a : Arg} {t : Term} (h : a.Lowers ws t) (ρ : Assignment) :
    a.kind.Takes ρ (t.constant ρ.toValuation) := by
  unfold Arg.Lowers at h
  cases hk : a.kind with
  | wildcard => trivial
  | var x => rw [hk] at h; obtain ⟨_, rfl⟩ := h; rfl
  | symbol s => rw [hk] at h; obtain ⟨_, rfl⟩ := h; rfl
  | quoted s => rw [hk] at h; obtain ⟨_, rfl⟩ := h; rfl
  | int n => rw [hk] at h; obtain ⟨_, rfl⟩ := h; rfl
  | float x => rw [hk] at h; obtain ⟨_, rfl⟩ := h; rfl

theorem Arg.LowersAll.takes (h : Arg.LowersAll as ws ts) (ρ : Assignment) :
    List.Forall₂ (fun a x => a.kind.Takes ρ x) as (ts.map (Term.constant ρ.toValuation)) := by
  induction h with
  | nil => exact .nil
  | cons h _ ih => exact .cons (h.takes ρ) ih

/-- Constants that an argument can stand for are its values, when the name of a wildcard is given
the right one. -/
theorem Arg.Lowers.exists_constant {a : Arg} {t : Term} (h : a.Lowers ws t) {ρ : Assignment}
    {c : Constant} (hc : a.kind.Takes ρ c) :
    ∃ ρ' : Assignment, (∀ x, x ∉ ws → ρ' x = ρ x) ∧ t.constant ρ'.toValuation = c := by
  unfold Arg.Lowers at h
  cases hk : a.kind with
  | wildcard =>
    rw [hk] at h
    obtain ⟨w, rfl, rfl⟩ := h
    refine ⟨Function.update ρ w c, fun x hx => Function.update_of_ne (by simpa using hx) _ _, ?_⟩
    exact Function.update_self w c ρ
  | var x => rw [hk] at h hc; obtain ⟨_, rfl⟩ := h; exact ⟨ρ, fun _ _ => rfl, hc⟩
  | symbol s => rw [hk] at h hc; obtain ⟨_, rfl⟩ := h; exact ⟨ρ, fun _ _ => rfl, hc⟩
  | quoted s => rw [hk] at h hc; obtain ⟨_, rfl⟩ := h; exact ⟨ρ, fun _ _ => rfl, hc⟩
  | int n => rw [hk] at h hc; obtain ⟨_, rfl⟩ := h; exact ⟨ρ, fun _ _ => rfl, hc⟩
  | float x => rw [hk] at h hc; obtain ⟨_, rfl⟩ := h; exact ⟨ρ, fun _ _ => rfl, hc⟩

def Assignment.join (ws : List String) (ρ₁ ρ₂ : Assignment) :
    Assignment := fun x => if x ∈ ws then ρ₁ x else ρ₂ x

theorem Assignment.join_right {x : String} (h : x ∉ ws) :
    Assignment.join ws ρ₁ ρ₂ x = ρ₂ x := if_neg h

theorem Assignment.join_left {ws' : List String} {ρ : Assignment} (h₁ : ∀ x, x ∉ ws → ρ₁ x = ρ x)
    (h₂ : ∀ x, x ∉ ws' → ρ₂ x = ρ x) {x : String} (h : x ∉ ws') :
    Assignment.join ws ρ₁ ρ₂ x = ρ₁ x := by
  by_cases hx : x ∈ ws
  · exact if_pos hx
  · rw [join_right hx, h₁ x hx, h₂ x h]

theorem Arg.LowersAll.exists_constants (h : Arg.LowersAll as ws ts) (hws : ws.Nodup)
    (hfree : ∀ w ∈ ws, w ∉ as.filterMap Arg.varName?) {ρ : Assignment} {cs : List Constant}
    (hcs : List.Forall₂ (fun a x => a.kind.Takes ρ x) as cs) :
    ∃ ρ' : Assignment, (∀ x, x ∉ ws → ρ' x = ρ x) ∧ ts.map (Term.constant ρ'.toValuation) = cs := by
  induction h generalizing cs with
  | nil => cases hcs; exact ⟨ρ, fun _ _ => rfl, rfl⟩
  | @cons a as ws ws' t ts ha has ih =>
    cases hcs with
    | @cons _ c _ cs hc hcs =>
      obtain ⟨_, hws', hdisjoint⟩ := List.nodup_append'.mp hws
      have hvars : ∀ x, x ∈ as.filterMap Arg.varName? →
          x ∈ (a :: as).filterMap Arg.varName? := fun x hx => by
        obtain ⟨b, hb, hbx⟩ := List.mem_filterMap.mp hx
        exact List.mem_filterMap.mpr ⟨b, List.mem_cons_of_mem _ hb, hbx⟩
      obtain ⟨ρ₁, hρ₁, hconstant⟩ := ha.exists_constant hc
      obtain ⟨ρ₂, hρ₂, rfl⟩ :=
        ih hws' (fun w hw hx => hfree w (List.mem_append_right _ hw) (hvars w hx)) hcs
      refine ⟨Assignment.join ws ρ₁ ρ₂, fun x hx => ?_, ?_⟩
      · rw [List.mem_append, not_or] at hx
        rw [Assignment.join_right hx.1, hρ₂ x hx.2]
      · have hhead : t.constant (Assignment.join ws ρ₁ ρ₂).toValuation =
            t.constant ρ₁.toValuation := by
          refine Term.constant_congr fun v hv => Assignment.join_left hρ₁ hρ₂ fun hw => ?_
          rcases ((ha.mem_occurrences v).mp hv).2 with hx | hx
          · exact hfree _ (List.mem_append_right _ hw) (List.mem_filterMap.mpr ⟨a, by simp, hx⟩)
          · exact hdisjoint hx hw
        have htail : ts.map (Term.constant (Assignment.join ws ρ₁ ρ₂).toValuation) =
            ts.map (Term.constant ρ₂.toValuation) := by
          refine Term.map_constant_congr fun v hv => Assignment.join_right fun hw => ?_
          rcases ((has.mem_occurrences v).mp hv).2 with hx | hx
          · exact hfree _ (List.mem_append_left _ hw) (hvars _ hx)
          · exact hdisjoint hw hx
        rw [List.map_cons, hhead, htail, hconstant]

/-- Literals in their place on a path, with names for their wildcards that the path does not have.
Those of their variables that are in `bound` occur elsewhere on the path, and the variables of calls
to the left are in `bound`. -/
structure Placed (outside : List String) (before after : List Literal)
    (bound : Set String) (ws : List String) : Prop where
  nodup : ws.Nodup
  free : ∀ w ∈ ws, w ∉ outside ∧ w ∉ Literal.varsAll before ∧ w ∉ Literal.varsAll after ∧ w ∉ bound
  known : ∀ x ∈ Literal.varsAll after, x ∈ bound → x ∈ outside ∨ x ∈ Literal.varsAll before
  left : ∀ x ∈ boundBy before, x ∈ bound

def Agrees (I : Interpretation) (outside : List String) (before after : List Literal)
    (bound : Set String) (ws : List String) (ts : List Term) : Prop :=
  ∀ ρ, (I.Holds ρ bound ts → I.AllTrue outside ρ before after) ∧
    (I.AllTrue outside ρ before after → ∃ ρ', (∀ x, x ∉ ws → ρ' x = ρ x) ∧ I.Holds ρ' bound ts)

section Steps

variable {I : Interpretation} {outside : List String} {before after : List Literal}
  {bound : Set String} {ws₁ ws₂ : List String} {rest us : List Term}

theorem Placed.call {c : Call} (h : Placed outside before (.call c :: after) bound (ws₁ ++ ws₂))
    (hus : Arg.LowersAll c.args ws₁ us) :
    Placed outside (before ++ [.call c]) after (bound ∪ (Term.apply c.name us).names) ws₂ := by
  obtain ⟨_, hws₂, hdisjoint⟩ := List.nodup_append'.mp h.nodup
  have hnames : ∀ x ∈ (Term.apply c.name us).names, x ∈ c.vars ∨ x ∈ ws₁ := by
    rintro _ ⟨v, hv, rfl⟩
    rw [Term.occurrences_apply] at hv
    exact ((hus.mem_occurrences v).mp hv).2
  refine ⟨hws₂, fun w hw => ?_, fun x hx hb => ?_, fun x hx => ?_⟩
  · obtain ⟨ho, hbefore, hafter, hb⟩ := h.free w (List.mem_append_right _ hw)
    rw [Literal.varsAll, List.mem_append, not_or] at hafter
    refine ⟨ho, ?_, hafter.2, ?_⟩
    · simpa [Literal.varsAll_append, Literal.varsAll, hbefore] using hafter.1
    · rintro (hb' | hn)
      · exact hb hb'
      · exact (hnames w hn).elim hafter.1 fun hw' => hdisjoint hw' hw
  · rw [Literal.varsAll_append, List.mem_append]
    rcases hb with hb | hn
    · exact (h.known x (List.mem_append_right _ hx) hb).imp_right .inl
    · rcases hnames x hn with hv | hw
      · exact .inr (.inr (by simpa [Literal.varsAll, Literal.vars] using hv))
      · exact ((h.free x (List.mem_append_left _ hw)).2.2.1 (List.mem_append_right _ hx)).elim
  · rw [boundBy_append, List.mem_append] at hx
    rcases hx with hx | hx
    · exact .inl (h.left x hx)
    · refine .inr ⟨⟨x, 0⟩, ?_, rfl⟩
      rw [Term.occurrences_apply]
      exact (hus.mem_occurrences ⟨x, 0⟩).mpr ⟨rfl, .inl (by simpa [boundBy, Call.vars] using hx)⟩

variable {f : Formula} {s : Span}

theorem Placed.negated (h : Placed outside before (.negated f s :: after) bound (ws₁ ++ ws₂)) :
    Placed outside (before ++ [.negated f s]) after bound ws₂ := by
  refine ⟨(List.nodup_append'.mp h.nodup).2.1, fun w hw => ?_, fun x hx hb => ?_, fun x hx => ?_⟩
  · obtain ⟨ho, hbefore, hafter, hb⟩ := h.free w (List.mem_append_right _ hw)
    rw [Literal.varsAll, List.mem_append, not_or] at hafter
    exact ⟨ho, by simpa [Literal.varsAll_append, Literal.varsAll, hbefore] using hafter.1,
      hafter.2, hb⟩
  · rw [Literal.varsAll_append, List.mem_append]
    exact (h.known x (List.mem_append_right _ hx) hb).imp_right .inl
  · rw [boundBy_append, List.mem_append] at hx
    exact h.left x (hx.resolve_right List.not_mem_nil)

theorem Placed.inside (h : Placed outside before (.negated f s :: after) bound (ws₁ ++ ws₂))
    {a : List Literal} (ha : a ∈ f.alternatives) {ws : List String} (hws : ws.Sublist ws₁) :
    Placed (outside ++ Literal.varsAll after) before a bound ws := by
  have hvars := (Formula.of_mem_alternatives ha).2.1
  refine ⟨hws.nodup (List.nodup_append'.mp h.nodup).1, fun w hw => ?_, fun x hx hb => ?_, h.left⟩
  · obtain ⟨ho, hbefore, hafter, hb⟩ := h.free w (List.mem_append_left _ (hws.subset hw))
    rw [Literal.varsAll, List.mem_append, not_or] at hafter
    exact ⟨by simp [ho, hafter.2], hbefore, fun hx => hafter.1 (hvars hx), hb⟩
  · exact (h.known x (List.mem_append_left _ (hvars hx)) hb).imp_left fun ho =>
      List.mem_append_left _ ho

theorem agrees_call {c : Call}
    (htask : ∀ args, task (.apply c.name args) = .call ⟨c.name, args.length⟩)
    (h : Placed outside before (.call c :: after) bound (ws₁ ++ ws₂))
    (hus : Arg.LowersAll c.args ws₁ us) (hrest : Literal.LowersAll after ws₂ rest)
    (ih : Agrees I outside (before ++ [.call c]) after (bound ∪ (Term.apply c.name us).names) ws₂
      rest) :
    Agrees I outside before (.call c :: after) bound (ws₁ ++ ws₂) (.apply c.name us :: rest) := by
  obtain ⟨hws₁, _, hdisjoint⟩ := List.nodup_append'.mp h.nodup
  have hfree : ∀ w ∈ ws₁ ++ ws₂, w ∉ c.vars ∧ w ∉ Literal.varsAll after := fun w hw => by
    have hafter := (h.free w hw).2.2.1
    rwa [Literal.varsAll, List.mem_append, not_or] at hafter
  intro ρ
  simp only [Interpretation.allTrue_call, Interpretation.holds_call (htask us), Term.args_apply]
  refine ⟨fun hh => ⟨⟨_, hus.takes ρ, hh.1⟩, (ih ρ).1 hh.2⟩, fun hh => ?_⟩
  obtain ⟨⟨cs, hcs, hI⟩, hafter⟩ := hh
  obtain ⟨ρ₁, hρ₁, rfl⟩ :=
    hus.exists_constants hws₁ (fun w hw => (hfree w (List.mem_append_left _ hw)).1) hcs
  obtain ⟨ρ₂, hρ₂, hholds⟩ := (ih ρ).2 hafter
  refine ⟨Assignment.join ws₁ ρ₁ ρ₂, fun x hx => ?_, ?_, ?_⟩
  · rw [List.mem_append, not_or] at hx
    rw [Assignment.join_right hx.1, hρ₂ x hx.2]
  · have hvalues : us.map (Term.constant (Assignment.join ws₁ ρ₁ ρ₂).toValuation) =
        us.map (Term.constant ρ₁.toValuation) := by
      refine Term.map_constant_congr fun v hv => Assignment.join_left hρ₁ hρ₂ fun hw => ?_
      rcases ((hus.mem_occurrences v).mp hv).2 with hx | hx
      · exact (hfree _ (List.mem_append_right _ hw)).1 hx
      · exact hdisjoint hx hw
    rw [hvalues]
    exact hI
  · refine (Interpretation.holds_congr (fun v hv => ?_) fun _ _ => Iff.rfl).mpr hholds
    refine Assignment.join_right fun hw => ?_
    rcases ((hrest.mem_occurrences v).mp hv).2 with hx | hx
    · exact (hfree _ (List.mem_append_left _ hw)).2 hx
    · exact hdisjoint hw hx

/-- A negation is true when its lowered form holds, whatever values the names of wildcards have
there. -/
theorem negation_iff {u : Term}
    (h : Placed outside before (.negated f s :: after) bound (ws₁ ++ ws₂)) (hu : f.Lowers ws₁ u)
    (hhazards : hazardsFrom outside before (.negated f s :: after) = [])
    (hinside : ∀ a ∈ f.alternatives, ∀ ws ts, ws.Sublist ws₁ → Literal.LowersAll a ws ts →
      Agrees I (outside ++ Literal.varsAll after) before a bound ws ts)
    {ρ ρ₀ : Assignment} (hρ₀ : ∀ x, x ∉ ws₁ ++ ws₂ → ρ₀ x = ρ x) :
    (∃ ρ' : Assignment, (∀ v ∈ u.occurrences, v.name ∈ bound → ρ' v.name = ρ₀ v.name) ∧
      I.Holds ρ' bound [u]) ↔ ∃ a ∈ f.alternatives, ∃ ρ' : Assignment,
        (∀ x ∈ outside ++ Literal.varsAll before ++ Literal.varsAll after, ρ' x = ρ x) ∧
          I.AllTrue (outside ++ Literal.varsAll after) ρ' before a := by
  obtain ⟨tss, hsplits, hparts⟩ := hu.splits
  have helsewhere : ∀ x ∈ outside ++ Literal.varsAll before ++ Literal.varsAll after,
      x ∉ ws₁ ++ ws₂ := by
    intro x hx hw
    obtain ⟨ho, hbefore, hafter, _⟩ := h.free x hw
    rw [Literal.varsAll, List.mem_append, not_or] at hafter
    simp [ho, hbefore, hafter.2] at hx
  constructor
  · rintro ⟨ρ', hρ', hholds⟩
    rw [hsplits.holds_iff] at hholds
    obtain ⟨ts, hts, hholds⟩ := hholds
    rw [List.append_nil] at hholds
    obtain ⟨a, ha, ws, hws, hlow⟩ := exists_of_mem_left hparts.flip hts
    -- outside the formula the values are those of `ρ`
    let ρ'' : Assignment := fun x => if x ∈ f.vars ∨ x ∈ ws₁ then ρ' x else ρ x
    refine ⟨a, ha, ρ'', fun x hx => ?_, ((hinside a ha ws ts hws hlow) ρ'').1 ?_⟩
    · by_cases hin : x ∈ f.vars ∨ x ∈ ws₁
      · have hw := helsewhere x hx
        have hf := hin.resolve_right fun hw' => hw (List.mem_append_left _ hw')
        have hb := h.left x (hazardsFrom_negated hhazards hf hx)
        have heq := hρ' ⟨x, 0⟩ ((hu.mem_occurrences ⟨x, 0⟩).mpr ⟨rfl, .inl hf⟩) hb
        exact (if_pos hin).trans (heq.trans (hρ₀ x hw))
      · exact if_neg hin
    · refine (Interpretation.holds_congr (fun v hv => ?_) fun _ _ => Iff.rfl).mpr hholds
      refine if_pos (((hlow.mem_occurrences v).mp hv).2.imp (fun hx => ?_) fun hw => hws.subset hw)
      exact (Formula.of_mem_alternatives ha).2.1 hx
  · rintro ⟨a, ha, ρ', hρ', htrue⟩
    obtain ⟨ts, hts, ws, hws, hlow⟩ := exists_of_mem_left hparts ha
    obtain ⟨ρ'', hρ'', hholds⟩ := ((hinside a ha ws ts hws hlow) ρ').2 htrue
    refine ⟨ρ'', fun v hv hb => ?_, (hsplits.holds_iff _ _).mpr ⟨ts, hts, by rwa [List.append_nil]⟩⟩
    rcases ((hu.mem_occurrences v).mp hv).2 with hx | hw
    · have hin : v.name ∈ Literal.varsAll (.negated f s :: after) := List.mem_append_left _ hx
      have hnw : v.name ∉ ws₁ ++ ws₂ := fun hw => (h.free _ hw).2.2.1 hin
      have hout : v.name ∈ outside ++ Literal.varsAll before ++ Literal.varsAll after := by
        rw [List.mem_append, List.mem_append]
        exact .inl (h.known _ hin hb)
      rw [hρ'' _ fun hw => hnw (List.mem_append_left _ (hws.subset hw)), hρ' _ hout, hρ₀ _ hnw]
    · exact ((h.free _ (List.mem_append_left _ hw)).2.2.2 hb).elim

theorem agrees_negated {u : Term}
    (h : Placed outside before (.negated f s :: after) bound (ws₁ ++ ws₂)) (hu : f.Lowers ws₁ u)
    (hhazards : hazardsFrom outside before (.negated f s :: after) = [])
    (hinside : ∀ a ∈ f.alternatives, ∀ ws ts, ws.Sublist ws₁ → Literal.LowersAll a ws ts →
      Agrees I (outside ++ Literal.varsAll after) before a bound ws ts)
    (ih : Agrees I outside (before ++ [.negated f s]) after bound ws₂ rest) :
    Agrees I outside before (.negated f s :: after) bound (ws₁ ++ ws₂)
      (.compound "not" [u] :: rest) := by
  intro ρ
  have htask : task (.compound "not" [u]) = .negation u := rfl
  simp only [Interpretation.allTrue_negated, Interpretation.holds_negation htask]
  constructor
  · rintro ⟨hnot, hholds⟩
    exact ⟨fun htrue => hnot ((negation_iff h hu hhazards hinside fun _ _ => rfl).mpr htrue),
      (ih ρ).1 hholds⟩
  · rintro ⟨hnot, htrue⟩
    obtain ⟨ρ', hρ', hholds⟩ := (ih ρ).2 htrue
    have hρ' : ∀ x, x ∉ ws₁ ++ ws₂ → ρ' x = ρ x :=
      fun x hx => hρ' x fun hw => hx (List.mem_append_right _ hw)
    exact ⟨ρ', hρ', fun hex => hnot ((negation_iff h hu hhazards hinside hρ').mp hex), hholds⟩

end Steps

/-- Lowering keeps the meaning of literals, if every negation on their paths is guarded. -/
theorem agrees_of_guarded {I : Interpretation} {P : String → Bool}
    (htask : ∀ p args, P p → task (.apply p args) = .call ⟨p, args.length⟩) {outside : List String}
    {before after : List Literal} {bound : Set String} (hlow : Literal.LowersAll after ws ts)
    (hsimple : ∀ l ∈ after, l.Simple P true) (hplaced : Placed outside before after bound ws)
    (hhazards : hazardsFrom outside before after = []) (hguarded : isGuarded outside before after) :
    Agrees I outside before after bound ws ts := by
  induction hsize : Literal.sizeAll after using Nat.strongRecOn generalizing outside
    before after bound ws ts with
  | ind n ih =>
    subst hsize
    cases after with
    | nil =>
      obtain ⟨rfl, rfl⟩ := hlow
      exact fun ρ => ⟨fun _ => by simp, fun _ => ⟨ρ, fun _ _ => rfl, by simp⟩⟩
    | cons l after =>
      obtain ⟨ws₁, ws₂, t, rest, hl, hrest, rfl, rfl⟩ := hlow
      have hthere := (List.append_eq_nil_iff.mp hhazards).2
      have hsimple' : ∀ k ∈ after, k.Simple P true :=
        fun k hk => hsimple k (List.mem_cons_of_mem _ hk)
      have hlt := Literal.sizeAll_lt l after
      rcases hsimple l (by simp) with ⟨c, rfl, hp⟩ | ⟨f, s, rfl, _, hf⟩
      · obtain ⟨us, hus, rfl⟩ := hl
        exact agrees_call (fun args => htask _ args hp) hplaced hus hrest
          (ih _ hlt hrest hsimple' (hplaced.call hus) hthere (isGuarded_cons hguarded) rfl)
      · obtain ⟨u, hu, rfl⟩ := hl
        refine agrees_negated hplaced hu hhazards (fun a ha ws ts hws hlow => ?_)
          (ih _ hlt hrest hsimple' hplaced.negated hthere (isGuarded_cons hguarded) rfl)
        have hlt' : Literal.sizeAll a < Literal.sizeAll (.negated f s :: after) := by
          have := (Formula.of_mem_alternatives ha).1
          simp only [Literal.sizeAll, Literal.size]
          omega
        obtain ⟨hhazards', hguarded'⟩ := isGuarded_negated hguarded ha
        exact ih _ hlt' hlow (Formula.simple_of_mem_alternatives hf a ha) (hplaced.inside ha hws)
          hhazards' hguarded' rfl

end GraphRules
