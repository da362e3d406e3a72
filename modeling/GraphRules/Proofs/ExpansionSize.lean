import GraphRules.Program.Lowering
import GraphRules.Proofs.NormalForm

/-! How many alternatives a formula has. They are counted without being formed, by sums and products
that stop at a limit. The count is the number of alternatives, cut once at the limit, and so are all
sums and products on the way to it. A program has a clause for each alternative, and the warning
about a large number of them is exact. -/
namespace GraphRules

theorem min_add_min_eq (L a b : Nat) : min L (min L a + min L b) = min L (a + b) := by omega

/-- A factor that was cut at the limit is not noticed in the cut product; a factor of zero takes
away what was cut. -/
theorem min_mul_min_right_eq (L a b : Nat) : min L (a * min L b) = min L (a * b) := by
  rcases Nat.le_total b L with hb | hb
  · rw [Nat.min_eq_right hb]
  rcases Nat.eq_zero_or_pos a with rfl | ha
  · simp
  have hcut : L ≤ a * L := Nat.le_mul_of_pos_left L ha
  rw [Nat.min_eq_left hb, Nat.min_eq_left hcut,
    Nat.min_eq_left (hcut.trans (Nat.mul_le_mul_left a hb))]

theorem min_mul_min_eq (L a b : Nat) : min L (min L a * min L b) = min L (a * b) := by
  rw [min_mul_min_right_eq, Nat.mul_comm, min_mul_min_right_eq, Nat.mul_comm]

theorem one_le_countLimit : 1 ≤ countLimit := by decide

theorem length_flatMap_map {α β γ : Type} (as : List α) (bs : List β) (g : α → β → γ) :
    (as.flatMap fun a => bs.map (g a)).length = as.length * bs.length := by
  induction as with
  | nil => simp
  | cons a as ih =>
    rw [List.flatMap_cons, List.length_append, ih, List.length_map, List.length_cons, Nat.succ_mul,
      Nat.add_comm]

theorem Literal.length_alternativesAll_cons (l : Literal) (ls : List Literal) :
    (Literal.alternativesAll (l :: ls)).length =
      l.alternatives.length * (Literal.alternativesAll ls).length :=
  length_flatMap_map _ _ _

theorem Formula.length_alternativesAny_cons (c : List Literal) (cs : List (List Literal)) :
    (Formula.alternativesAny (c :: cs)).length =
      (Literal.alternativesAll c).length + (Formula.alternativesAny cs).length :=
  List.length_append

theorem Literal.count_of_alone {l : Literal} (hl : ∀ f, l ≠ .group f) : l.count = 1 := by
  cases l with
  | group f => exact absurd rfl (hl f)
  | _ => rfl

/-- Counting goes on from a product that was cut at the limit. -/
theorem Literal.countAll_min {ls : List Literal}
    (h : ∀ l ∈ ls, l.count = min countLimit l.alternatives.length) (n : Nat) :
    Literal.countAll (min countLimit n) ls =
      min countLimit (n * (Literal.alternativesAll ls).length) := by
  induction ls generalizing n with
  | nil => rw [Literal.countAll, Literal.alternativesAll, List.length_singleton, Nat.mul_one]
  | cons l ls ih =>
    obtain ⟨hl, hls⟩ := List.forall_mem_cons.mp h
    rw [Literal.countAll, hl, min_mul_min_eq, ih hls, Literal.length_alternativesAll_cons,
      Nat.mul_assoc]

/-- Counting goes on from a sum that was cut at the limit. -/
theorem Formula.countAny_min {ds : List (List Literal)}
    (h : ∀ c ∈ ds, ∀ l ∈ c, l.count = min countLimit l.alternatives.length) (n : Nat) :
    Formula.countAny (min countLimit n) ds =
      min countLimit (n + (Formula.alternativesAny ds).length) := by
  induction ds generalizing n with
  | nil => rw [Formula.countAny, Formula.alternativesAny, List.length_nil, Nat.add_zero]
  | cons c cs ih =>
    obtain ⟨hc, hcs⟩ := List.forall_mem_cons.mp h
    have hproduct := Literal.countAll_min hc 1
    rw [Nat.min_eq_right one_le_countLimit, Nat.one_mul] at hproduct
    rw [Formula.countAny, hproduct, min_add_min_eq, ih hcs,
      Formula.length_alternativesAny_cons, Nat.add_assoc]

theorem Literal.count_eq (l : Literal) : l.count = min countLimit l.alternatives.length := by
  induction l using Literal.induction with
  | alone l hl =>
    rw [Literal.count_of_alone hl, Literal.alternatives_of_alone hl, List.length_singleton,
      Nat.min_eq_right one_le_countLimit]
  | group f ih =>
    have hsum := Formula.countAny_min ih 0
    rw [Nat.min_zero, Nat.zero_add] at hsum
    cases f
    exact hsum

theorem Literal.countAll_eq (ls : List Literal) :
    Literal.countAll 1 ls = min countLimit (Literal.alternativesAll ls).length := by
  have hproduct := Literal.countAll_min (fun l (_ : l ∈ ls) => l.count_eq) 1
  rwa [Nat.min_eq_right one_le_countLimit, Nat.one_mul] at hproduct

theorem Formula.countAny_eq (ds : List (List Literal)) :
    Formula.countAny 0 ds = min countLimit (Formula.alternativesAny ds).length := by
  have hsum := Formula.countAny_min (fun c (_ : c ∈ ds) l (_ : l ∈ c) => l.count_eq) 0
  rwa [Nat.min_zero, Nat.zero_add] at hsum

theorem Formula.count_eq (f : Formula) : f.count = min countLimit f.alternatives.length :=
  (Literal.group f).count_eq

theorem Literal.countAll_append (n : Nat) (xs ys : List Literal) :
    Literal.countAll n (xs ++ ys) = Literal.countAll (Literal.countAll n xs) ys := by
  induction xs generalizing n with
  | nil => rfl
  | cons l xs ih => exact ih _

theorem Formula.countAny_append (n : Nat) (xs ys : List (List Literal)) :
    Formula.countAny n (xs ++ ys) = Formula.countAny (Formula.countAny n xs) ys := by
  induction xs generalizing n with
  | nil => rfl
  | cons c xs ih => exact ih _

namespace Lowering

def expansionWarning (threshold : Nat) (i : Item) (alternatives : Nat) : Diagnostic :=
  ⟨.lowering, .warning, "W101",
    "statement expands into " ++ toString (min countLimit alternatives) ++
    " alternatives (threshold " ++ toString threshold ++ ")", some i.span⟩

variable {threshold : Nat}

/-- Below the limit, comparing the count is comparing the number of alternatives. -/
theorem lt_count_iff (h : threshold < countLimit) (f : Formula) :
    threshold < f.count ↔ threshold < f.alternatives.length := by
  rw [f.count_eq, Nat.lt_min]
  exact and_iff_right h

theorem expansionWarning?_eq (h : threshold < countLimit) (i : Item) :
    expansionWarning? threshold i = (expanded? i).bind fun f =>
      if threshold < f.alternatives.length then
        some (expansionWarning threshold i f.alternatives.length) else none := by
  refine congrArg _ (funext fun f => ?_)
  simp only [lt_count_iff h, expansionWarning]
  rw [f.count_eq]

theorem length_ruleClauses (r : Rule) : (ruleClauses r).length =
    r.consequence.length * r.antecedent?.elim 1 fun f => f.alternatives.length := by
  rw [ruleClauses]
  cases r.antecedent? with
  | none => rw [List.length_map, Option.elim_none, Nat.mul_one]
  | some f => exact length_flatMap_map _ _ _

end Lowering

namespace Script

theorem lower_append_cons (before after : List Item) (i : Item) (threshold : Nat) :
    lower threshold ⟨before ++ i :: after⟩ =
      ⟨(lower threshold ⟨before⟩).clauses ++ Lowering.itemClauses i ++
        (lower threshold ⟨after⟩).clauses,
          (lower threshold ⟨before⟩).warnings ++ (Lowering.expansionWarning? threshold i).toList ++
          (lower threshold ⟨after⟩).warnings⟩ := by
  cases hwarning : Lowering.expansionWarning? threshold i <;> simp [lower, hwarning]

/-- The count of alternatives is their number, cut at the greatest number of 64 bits, and so is
every sum and product on the way: counting the first disjuncts of a formula, or the first literals
of a disjunct, leads to the number of their alternatives, cut at the limit, and goes on from there.
Wherever it stands in a script, a rule has as many clauses for each of its consequences as its
condition has alternatives, or one if there is no condition, and a query has as many besides the
fact that announces it. Under a threshold below the limit, there is a warning for a statement if and
only if it has more alternatives than the threshold. -/
theorem lower_counts_alternatives :
    countLimit + 1 = UInt64.size ∧
    (∀ f : Formula, f.count = min countLimit f.alternatives.length) ∧
    (∀ (xs ys : List (List Literal)) (span : Span), (Formula.mk (xs ++ ys) span).count =
      Formula.countAny (min countLimit (Formula.alternativesAny xs).length) ys) ∧
    (∀ xs ys : List Literal, Literal.countAll 1 (xs ++ ys) =
      Literal.countAll (min countLimit (Literal.alternativesAll xs).length) ys) ∧
    ∀ (before after : List Item) (threshold : Nat),
      (∀ r : Rule, ∃ cs, (lower threshold ⟨before ++ .rule r :: after⟩).clauses =
          (lower threshold ⟨before⟩).clauses ++ cs ++ (lower threshold ⟨after⟩).clauses ∧
        cs.length = r.consequence.length * r.antecedent?.elim 1 fun f => f.alternatives.length) ∧
      (∀ q : Query, ∃ cs, (lower threshold ⟨before ++ .query q :: after⟩).clauses =
          (lower threshold ⟨before⟩).clauses ++ Lowering.queryFact q.name q.headVariables.length ::
            cs ++ (lower threshold ⟨after⟩).clauses ∧
        cs.length = q.body.alternatives.length) ∧
      (threshold < countLimit → ∀ i : Item,
        (∀ f, Lowering.expanded? i = some f → (lower threshold ⟨before ++ i :: after⟩).warnings =
          (lower threshold ⟨before⟩).warnings ++
            (if threshold < f.alternatives.length then
              [Lowering.expansionWarning threshold i f.alternatives.length]
              else []) ++ (lower threshold ⟨after⟩).warnings) ∧
        (Lowering.expanded? i = none → (lower threshold ⟨before ++ i :: after⟩).warnings =
          (lower threshold ⟨before⟩).warnings ++ (lower threshold ⟨after⟩).warnings)) := by
  refine ⟨rfl, Formula.count_eq, fun xs ys span => ?_, fun xs ys => ?_,
    fun before after threshold => ⟨?_, ?_, ?_⟩⟩
  · rw [Formula.count, Formula.countAny_append, Formula.countAny_eq]
  · rw [Literal.countAll_append, Literal.countAll_eq]
  · intro r
    exact ⟨Lowering.ruleClauses r, by rw [lower_append_cons]; rfl, Lowering.length_ruleClauses r⟩
  · intro q
    exact ⟨_, by rw [lower_append_cons]; rfl, List.length_map _⟩
  · intro hthreshold i
    rw [lower_append_cons, Lowering.expansionWarning?_eq hthreshold]
    refine ⟨fun f hf => ?_, fun hnone => ?_⟩
    · by_cases hmore : threshold < f.alternatives.length <;> simp [hf, hmore]
    · simp [hnone]

def eitherGroup : Literal :=
  .group (.mk [[.call ⟨"a", [], default⟩], [.call ⟨"b", [], default⟩]] default)

def eitherRule : Rule :=
  ⟨some (.mk [[eitherGroup, eitherGroup]] default), [⟨"c", [], default⟩, ⟨"d", [], default⟩],
    default⟩

def wideQuery : Query := ⟨"wide", default, .mk [List.replicate 64 eitherGroup] default, default⟩

theorem lower_counts_alternatives_wide :
    (lower 3 ⟨[.rule eitherRule]⟩).clauses.length = 2 * 4 ∧
    (countLimit - 1 < countLimit ∧ countLimit ≤ wideQuery.body.alternatives.length ∧
      (lower (countLimit - 1) ⟨[.query wideQuery]⟩).warnings =
        [Lowering.expansionWarning (countLimit - 1) (.query wideQuery)
          wideQuery.body.alternatives.length]) := by
  obtain ⟨_, hcount, _, _, hlower⟩ := lower_counts_alternatives
  have hwide : wideQuery.body.count = countLimit := by decide +kernel
  have hlimit : countLimit ≤ wideQuery.body.alternatives.length := by
    rw [hcount] at hwide
    omega
  have hthreshold : countLimit - 1 < countLimit := by decide
  obtain ⟨cs, hclauses, hlength⟩ := (hlower [] [] 3).1 eitherRule
  have hwarnings :=
    ((hlower [] [] (countLimit - 1)).2.2 hthreshold (.query wideQuery)).1 wideQuery.body rfl
  refine ⟨?_, hthreshold, hlimit, ?_⟩
  · have hcs : (lower 3 ⟨[.rule eitherRule]⟩).clauses = cs := by simpa [lower] using hclauses
    rw [hcs, hlength]
    rfl
  · rw [if_pos (Nat.lt_of_lt_of_le hthreshold hlimit)] at hwarnings
    simpa [lower] using hwarnings

end Script

end GraphRules
