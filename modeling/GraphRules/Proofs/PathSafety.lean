import GraphRules.Proofs.DeclaredQueries
import GraphRules.Proofs.Evaluation
import GraphRules.Proofs.FindingCodes

/-! Where variables are bound when a literal is reached. A path through a formula chooses one of its
alternatives, and one of the alternatives of every negation that it enters. The check walks the
paths that enter no negation: there it reports exactly the comparisons and negations that come too
early. On the others it lets variables pass that occur nowhere outside of the outermost negation. -/
namespace GraphRules

open Check

structure Site where
  passed : List Literal
  literal : Literal
  ahead : List String

/-- A variable that is not bound where it is compared, or where it is negated and shared with the
rest of the path. -/
def Site.Unbound (site : Site) (x : String) : Prop :=
  x ∉ boundBy site.passed ∧
    match site.literal with
    | .compare c => x ∈ c.vars
    | .negated f _ => x ∈ f.vars ∧ x ∈ Literal.varsAll site.passed ++ site.ahead
    | .call _ => False
    | .group _ => False

inductive Formula.OnPath : List Literal → List String → Formula → Site → Prop
  | here {passed before after : List Literal} {outside : List String} {f : Formula} {l : Literal}
      (ha : before ++ l :: after ∈ f.alternatives) :
      OnPath passed outside f ⟨passed ++ before, l, outside ++ Literal.varsAll after⟩
  | inside {passed before after : List Literal} {outside : List String} {f g : Formula} {s : Span}
    {site : Site} (ha : before ++ .negated g s :: after ∈ f.alternatives)
    (h : OnPath (passed ++ before) (outside ++ Literal.varsAll after) g site) :
    OnPath passed outside f site

def Item.headVariables : Item → List String
  | .labels _ => []
  | .rule r => r.consequence.flatMap Call.vars
  | .query _ => []

variable {outside : List String} {passed before after : List Literal} {f g : Formula}
  {site : Site} {x : String}

theorem Site.Unbound.mem_vars (h : site.Unbound x) : x ∈ site.literal.vars := by
  obtain ⟨passed, l, ahead⟩ := site
  cases l with
  | compare c => exact h.2
  | negated f s => exact h.2.1
  | call c => exact h.2.elim
  | group f => exact h.2.elim

theorem Formula.OnPath.vars_subset (h : f.OnPath passed outside site) :
    site.literal.vars ⊆ f.vars := by
  have hmid : ∀ {before after : List Literal} (l : Literal),
      l.vars ⊆ Literal.varsAll (before ++ l :: after) := by
    intro before after l x hx
    rw [Literal.varsAll_append, Literal.varsAll]
    exact List.mem_append_right _ (List.mem_append_left _ hx)
  induction h with
  | here ha => exact List.Subset.trans (hmid _) (Formula.of_mem_alternatives ha).2.1
  | inside ha _ ih =>
    exact List.Subset.trans ih
      (List.Subset.trans (hmid (.negated _ _)) (Formula.of_mem_alternatives ha).2.1)

theorem Formula.OnPath.boundBy_subset (h : f.OnPath passed outside site) :
    boundBy passed ⊆ boundBy site.passed := by
  induction h with
  | here ha => rw [boundBy_append]; exact List.subset_append_left _ _
  | inside ha _ ih =>
    rw [boundBy_append] at ih
    exact List.Subset.trans (List.subset_append_left _ _) ih

namespace Check

theorem hazardsOf_eq_nil (l : Literal) :
    hazardsOf outside before l after = [] ↔
      ∀ x, ¬ Site.Unbound ⟨before, l, outside ++ Literal.varsAll after⟩ x := by
  cases l with
  | call c => exact iff_of_true rfl fun x h => h.2
  | group f => exact iff_of_true rfl fun x h => h.2
  | compare c =>
    simp only [hazardsOf, Site.Unbound, List.map_eq_nil_iff,
      List.filter_eq_nil_iff, decide_eq_true_eq]
    exact forall_congr' fun x => by tauto
  | negated f s =>
    simp only [hazardsOf, Site.Unbound, List.map_eq_nil_iff,
      List.filter_eq_nil_iff, Bool.and_eq_true, decide_eq_true_eq, List.mem_append]
    exact forall_congr' fun x => by tauto

variable {ls : List Literal}

/-- The check finds the literals of an alternative in order if and only if none of them comes too
early. -/
theorem hazardsFrom_eq_nil : hazardsFrom outside passed ls = [] ↔
    ∀ before l after, ls = before ++ l :: after →
      ∀ x, ¬ Site.Unbound ⟨passed ++ before, l, outside ++ Literal.varsAll after⟩ x := by
  induction ls generalizing passed with
  | nil => simp [hazardsFrom]
  | cons l ls ih =>
    rw [hazardsFrom, List.append_eq_nil_iff, hazardsOf_eq_nil, ih]
    constructor
    · rintro ⟨hhere, hlater⟩ before m after heq
      cases before with
      | nil =>
        cases heq
        rwa [List.append_nil]
      | cons k before =>
        cases heq
        simpa using hlater before m after rfl
    · refine fun h => ⟨by simpa using h [] l ls rfl, fun before m after heq => ?_⟩
      simpa using h (l :: before) m after (by rw [heq, List.cons_append])

/-- Where negations are not guarded, something comes too early on a path into one of them. -/
theorem exists_unbound_of_not_isGuarded (h : ¬ isGuarded outside passed ls) :
    ∃ before g s after, ls = before ++ .negated g s :: after ∧
      ∃ site x, g.OnPath (passed ++ before) (outside ++ Literal.varsAll after) site ∧
      site.Unbound x := by
  induction hsize : Literal.sizeAll ls using Nat.strongRecOn generalizing outside passed ls with
  | ind n ih =>
    subst hsize
    cases ls with
    | nil => exact (h (by rw [isGuarded])).elim
    | cons l after =>
      by_cases htail : isGuarded outside (passed ++ [l]) after
      · cases l with
        | call c => exact (h (by rw [isGuarded, htail]; rfl)).elim
        | compare c => exact (h (by rw [isGuarded, htail]; rfl)).elim
        | group f => exact (h (by rw [isGuarded, htail]; rfl)).elim
        | negated g s =>
          refine ⟨[], g, s, after, rfl, ?_⟩
          rw [isGuarded, htail, Bool.and_true, List.all_eq_true] at h
          push Not at h
          obtain ⟨⟨a, ha⟩, _, hbad⟩ := h
          rw [List.append_nil]
          by_cases hhere : hazardsFrom (outside ++ Literal.varsAll after) passed a = []
          · rw [hhere, List.isEmpty_nil, Bool.true_and] at hbad
            have hlt : Literal.sizeAll a < Literal.sizeAll (.negated g s :: after) := by
              have := (Formula.of_mem_alternatives ha).1
              simp only [Literal.sizeAll, Literal.size]
              omega
            obtain ⟨before, k, s', later, rfl, site, x, hsite, hx⟩ := ih _ hlt hbad rfl
            exact ⟨site, x, .inside ha hsite, hx⟩
          · rw [hazardsFrom_eq_nil] at hhere
            push Not at hhere
            obtain ⟨before, l, later, rfl, x, hx⟩ := hhere
            exact ⟨_, x, .here ha, hx⟩
      · obtain ⟨before, g, s, later, rfl, hsite⟩ := ih _ (Literal.sizeAll_lt l after) htail rfl
        exact ⟨l :: before, g, s, later, rfl, by simpa using hsite⟩

end Check

def Finding.IsHazard (f : Finding) : Prop := f.code = "E008"

namespace Check

theorem isHazard_key (f : Found) : (key f).1.IsHazard ↔ f.1.IsHazard := by
  obtain ⟨f, s⟩ := f
  cases f <;> simp [key, Finding.IsHazard, Finding.code]

theorem freeOf_hazards {a : List Literal} :
    FreeOf Finding.IsHazard (hazards outside a) ↔ hazards outside a = [] := by
  refine ⟨fun h => h.eq_nil fun f hf => List.mem_singleton.mp (raises_hazardsFrom _ _ _ f hf),
    fun h => ?_⟩
  rw [h]
  exact List.forall_mem_nil _

/-- A statement has no error of this kind if and only if all of its alternatives are in order. -/
theorem freeOf_itemFindings_iff {v : Vocabulary} {ds : List Definition} (i : Item) :
    FreeOf Finding.IsHazard (itemFindings v ds i) ↔
      ∀ f ∈ condition? i, ∀ a ∈ f.alternatives, hazards i.headVariables a = [] := by
  have hformula : ∀ f, FreeOf Finding.IsHazard (formulaFindings v ds f) := fun f =>
    (raises_formulaFindings f).freeOf _ (by simp)
  cases i with
  | labels d => exact iff_of_true (List.forall_mem_nil _) fun f hf => nomatch hf
  | rule r =>
    obtain ⟨antecedent?, consequence, span⟩ := r
    have hwildcard : FreeOf Finding.IsHazard (wildcardFindings consequence) :=
      (raises_wildcardFindings _).freeOf _ (by simp)
    have hsingleton : ∀ xs, FreeOf Finding.IsHazard (singletonFindings xs span) := fun xs =>
      (raises_singletonFindings xs _).freeOf _ (by simp)
    cases antecedent? with
    | none =>
      have hfact : FreeOf Finding.IsHazard (factFindings consequence) :=
        (raises_factFindings _).freeOf _ (by simp)
      simp [itemFindings, ruleFindings, condition?, freeOf_append, hwildcard, hfact, hsingleton]
    | some f =>
      have hunbound : ∀ a, FreeOf Finding.IsHazard (unboundFindings consequence a) := fun a =>
        (raises_unboundFindings _ a).freeOf _ (by simp)
      simp [itemFindings, ruleFindings, condition?, freeOf_append,
        freeOf_onceEach isHazard_key, freeOf_flatMap, freeOf_hazards, hwildcard, hsingleton,
        hformula, hunbound, Item.headVariables]
  | query q =>
    have hpartly : ∀ a, FreeOf Finding.IsHazard (partlyUnboundFindings q a) := fun a =>
      (raises_partlyUnboundFindings q a).freeOf _ (by simp)
    simp [itemFindings, queryFindings, condition?, freeOf_append,
      freeOf_onceEach isHazard_key, freeOf_flatMap, freeOf_hazards, hformula,
      hpartly, Item.headVariables]

end Check

namespace Script

variable {s : Script} {v : Vocabulary}

theorem exists_hazard_iff :
    (∃ d ∈ (s.check v).errors, d.code = "E008") ↔ ¬ FreeOf Finding.IsHazard (findings v s) := by
  have hsevere : ∀ f : Finding, f.IsHazard → f.severity = .error := by
    intro f hf
    cases f <;> first | rfl | simp [Finding.IsHazard, Finding.code] at hf
  simp only [FreeOf, not_forall, not_not]
  constructor
  · rintro ⟨d, hd, hcode⟩
    obtain ⟨f, hf, rfl⟩ := List.mem_map.mp (List.mem_filter.mp hd).1
    exact ⟨f, hf, hcode⟩
  · rintro ⟨f, hf, hcode⟩
    exact ⟨f.1.diagnostic f.2,
      List.mem_filter.mpr ⟨List.mem_map_of_mem hf, decide_eq_true (hsevere f.1 hcode)⟩, hcode⟩

/-- A script has an error of this kind exactly if a variable is not bound in a comparison or a
negation that no other negation encloses. In scripts that pass, the variables that are not bound
further inside occur nowhere outside of the outermost negation. -/
theorem unbound_only_inside_negations (s : Script) (v : Vocabulary) :
    ((∃ d ∈ (s.check v).errors, d.code = "E008") ↔
      ∃ i ∈ s.items, ∃ f ∈ condition? i, ∃ before l after, before ++ l :: after ∈ f.alternatives ∧
        ∃ x, Site.Unbound ⟨before, l, i.headVariables ++ Literal.varsAll after⟩ x) ∧
    ((s.check v).isOk → ∀ i ∈ s.items, ∀ f ∈ condition? i, ∀ before l after,
      before ++ l :: after ∈ f.alternatives →
      (∀ x, ¬ Site.Unbound ⟨before, l, i.headVariables ++ Literal.varsAll after⟩ x) ∧
      ∀ g span, l = .negated g span → ∀ site,
        g.OnPath before (i.headVariables ++ Literal.varsAll after) site →
        ∀ x, site.Unbound x →
          x ∉ i.headVariables ++ Literal.varsAll before ++ Literal.varsAll after) := by
  have hfree : FreeOf Finding.IsHazard (findings v s) ↔
      ∀ i ∈ s.items, ∀ f ∈ condition? i, ∀ before l after, before ++ l :: after ∈ f.alternatives →
        ∀ x, ¬ Site.Unbound ⟨before, l, i.headVariables ++ Literal.varsAll after⟩ x := by
    refine (freeOf_findings (by simp) (by simp) (by simp) s).trans (forall₂_congr fun i _ => ?_)
    refine (freeOf_itemFindings_iff i).trans (forall₂_congr fun f _ => ?_)
    simp only [hazards, hazardsFrom_eq_nil, List.nil_append]
    exact ⟨fun h before l after ha => h _ ha before l after rfl,
      fun h a ha before l after heq => h before l after (heq ▸ ha)⟩
  constructor
  · rw [exists_hazard_iff, hfree]
    push Not
    rfl
  · intro hok i hi f hf before l after ha
    have hfree' : FreeOf Finding.IsHazard (findings v s) := by
      by_contra hbad
      obtain ⟨d, hd, _⟩ := exists_hazard_iff.mpr hbad
      rw [List.isEmpty_iff.mp hok] at hd
      cases hd
    have hhere := hfree.mp hfree' i hi f hf before l after ha
    refine ⟨hhere, fun g span hl site hsite x hx hout => ?_⟩
    subst hl
    -- the variable is one of the negation and bound before it, so it is bound inside of it
    refine hhere x ⟨fun hb => hx.1 (hsite.boundBy_subset hb), hsite.vars_subset hx.mem_vars, ?_⟩
    simp only [List.mem_append] at hout ⊢
    tauto

def hubSource : String :=
  "degree(X, D), D > 2, not (edge(X, Y), not (degree(Y, E), E < D)) -> hub(X).\n"

theorem unbound_only_inside_negations_hub :
    ∃ s i f before l after, parse hubSource = .ok s ∧ (s.check Compiler.standardVocabulary).isOk ∧
      i ∈ s.items ∧ f ∈ condition? i ∧ before.length = 2 ∧ before ++ l :: after ∈ f.alternatives ∧
      (∀ x, ¬ Site.Unbound ⟨before, l, i.headVariables ++ Literal.varsAll after⟩ x) ∧
      ∀ g span, l = .negated g span →
      ∀ site, g.OnPath before (i.headVariables ++ Literal.varsAll after) site →
      ∀ x, site.Unbound x →
      x ∉ i.headVariables ++ Literal.varsAll before ++ Literal.varsAll after := by
  obtain ⟨s, hparse, hs⟩ := exists_ok_of_any (r := parse hubSource) (P := fun s =>
    (s.check Compiler.standardVocabulary).isOk && s.items.any fun i => (condition? i).any fun f =>
      f.alternatives.any fun a => a.length = 3) (by decide +kernel)
  obtain ⟨hok, hitems⟩ := Bool.and_eq_true_iff.mp hs
  obtain ⟨i, hi, hcondition⟩ := List.any_eq_true.mp hitems
  obtain ⟨f, hf, halternatives⟩ := (Option.any_eq_true _ _).mp hcondition
  obtain ⟨a, ha, hlength⟩ := List.any_eq_true.mp halternatives
  obtain ⟨l₁, l₂, l₃, rfl⟩ := List.length_eq_three.mp (of_decide_eq_true hlength)
  exact ⟨s, i, f, [l₁, l₂], l₃, [], hparse, hok, hi, hf, rfl, ha,
    (unbound_only_inside_negations s _).2 hok i hi f hf [l₁, l₂] l₃ [] ha⟩

/-- A variable that is bound too late passes the check inside of a negation. -/
theorem accepted_unbound_inside_negation :
    ∃ s i f before g span after site x, parse "node(X), not (D > 2, degree(X, D)) -> small(X)." =
      .ok s ∧ (s.check Compiler.standardVocabulary).isOk ∧ i ∈ s.items ∧ f ∈ condition? i ∧
      before ++ .negated g span :: after ∈ f.alternatives ∧
      g.OnPath before (i.headVariables ++ Literal.varsAll after) site ∧ site.Unbound x := by
  obtain ⟨s, hparse, hs⟩ :=
    exists_ok_of_any (r := parse "node(X), not (D > 2, degree(X, D)) -> small(X).")
    (P := fun s => (s.check Compiler.standardVocabulary).isOk && s.items.any fun i =>
      (condition? i).any fun f =>
      f.alternatives.any fun a => !Check.isGuarded i.headVariables [] a) (by decide +kernel)
  obtain ⟨hok, hitems⟩ := Bool.and_eq_true_iff.mp hs
  obtain ⟨i, hi, hcondition⟩ := List.any_eq_true.mp hitems
  obtain ⟨f, hf, halternatives⟩ := (Option.any_eq_true _ _).mp hcondition
  obtain ⟨a, ha, hguarded⟩ := List.any_eq_true.mp halternatives
  obtain ⟨before, g, span, after, rfl, site, x, hsite, hx⟩ :=
    exists_unbound_of_not_isGuarded (by simpa using hguarded)
  exact ⟨s, i, f, before, g, span, after, site, x, hparse, hok, hi, hf, ha, hsite, hx⟩

end Script

end GraphRules
