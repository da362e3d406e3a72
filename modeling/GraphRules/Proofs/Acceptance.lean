import GraphRules.Check.Basic
import Mathlib.Data.List.Basic
import Mathlib.Data.List.Pairwise

/-! What holds of scripts that pass the check. The findings about parts of a script are among those
about the whole, so where no error is found, every rule and every query is in order. -/
namespace GraphRules

open Check

def Check.FreeOf (bad : Finding → Prop) (fs : List Found) : Prop := ∀ f ∈ fs, ¬ bad f.1

def Finding.IsError (f : Finding) : Prop := f.severity = .error

def Finding.IsPartlyUnbound (f : Finding) : Prop := f.code = "W004"

namespace Check

variable {bad : Finding → Prop} {fs gs : List Found} {v : Vocabulary} {ds : List Definition}

theorem FreeOf.left (h : FreeOf bad (fs ++ gs)) : FreeOf bad fs :=
  fun f hf => h f (List.mem_append_left _ hf)

theorem FreeOf.right (h : FreeOf bad (fs ++ gs)) : FreeOf bad gs :=
  fun f hf => h f (List.mem_append_right _ hf)

theorem FreeOf.of_flatMap {α : Type} {as : List α} {g : α → List Found}
    (h : FreeOf bad (as.flatMap g)) {a : α} (ha : a ∈ as) :
    FreeOf bad (g a) := fun f hf => h f (List.mem_flatMap.mpr ⟨a, ha, hf⟩)

theorem FreeOf.eq_nil (h : FreeOf bad fs) (hb : ∀ f ∈ fs, bad f.1) : fs = [] :=
  List.eq_nil_iff_forall_not_mem.mpr fun f hf => h f hf (hb f hf)

theorem mem_onceEach {f : Found} (hf : f ∈ fs) (seen : List (Finding × Nat)) :
    key f ∈ seen ∨ ∃ f' ∈ onceEach seen fs, key f' = key f := by
  induction fs generalizing seen with
  | nil => cases hf
  | cons g gs ih =>
    rw [onceEach]
    rcases List.mem_cons.mp hf with rfl | hf
    · split
      · next hs => exact .inl hs
      · exact .inr ⟨f, by simp, rfl⟩
    · split
      · exact ih hf seen
      · rcases ih hf (key g :: seen) with hs | ⟨f', hf', hk⟩
        · rcases List.mem_cons.mp hs with hs | hs
          · exact .inr ⟨g, by simp, hs.symm⟩
          · exact .inl hs
        · exact .inr ⟨f', by simp [hf'], hk⟩

/-- Telling findings of one key once leaves none out that is bad, when keys tell the bad ones apart.
-/
theorem FreeOf.of_onceEach (hbad : ∀ f : Found, bad (key f).1 ↔ bad f.1)
    (h : FreeOf bad (onceEach [] fs)) : FreeOf bad fs := by
  intro f hf hb
  obtain hs | ⟨f', hf', hk⟩ := mem_onceEach hf []
  · cases hs
  · exact h f' hf' ((hbad f').mp (hk ▸ (hbad f).mpr hb))

theorem isError_key (f : Found) : (key f).1.IsError ↔ f.1.IsError := by
  obtain ⟨f, s⟩ := f
  cases f <;> rfl

theorem isPartlyUnbound_key (f : Found) : (key f).1.IsPartlyUnbound ↔ f.1.IsPartlyUnbound := by
  obtain ⟨f, s⟩ := f
  cases f <;> simp [key, Finding.IsPartlyUnbound, Finding.code]

theorem isError_of_mem_hazardsFrom {outside : List String} {before ls : List Literal} {f : Found}
    (hf : f ∈ hazardsFrom outside before ls) : f.1.IsError := by
  induction ls generalizing before with
  | nil => cases hf
  | cons l ls ih =>
    rcases List.mem_append.mp hf with hf | hf
    · cases l with
      | compare c => obtain ⟨x, _, rfl⟩ := List.mem_map.mp hf; rfl
      | negated g s => obtain ⟨x, _, rfl⟩ := List.mem_map.mp hf; rfl
      | call c => cases hf
      | group g => cases hf
    · exact ih hf

end Check

structure Rule.Sound (r : Rule) : Prop where
  plain : ∀ c ∈ r.consequence, ∀ a ∈ c.args, a.kind ≠ .wildcard
  fact : r.antecedent? = none → ∀ c ∈ r.consequence, c.vars = []
  bound : ∀ f ∈ r.antecedent?, ∀ a ∈ f.alternatives, ∀ c ∈ r.consequence,
    ∀ x ∈ c.vars, x ∈ boundBy a
  hazards : ∀ f ∈ r.antecedent?, ∀ a ∈ f.alternatives,
    hazards (r.consequence.flatMap Call.vars) a = []

def Query.Sound (q : Query) : Prop := ∀ a ∈ q.body.alternatives, hazards [] a = []

def Query.Bound (q : Query) : Prop :=
  ∀ a ∈ q.body.alternatives, ∀ x ∈ q.headVariables, x ∈ boundBy a

def Check.Entry.Apart (e e' : Entry) : Prop :=
  ∀ d d', e = .definition d → e' = .definition d' → d.name = d'.name →
    d.origin ≠ .query ∧ d'.origin ≠ .query

namespace Check

variable {v : Vocabulary} {ds : List Definition} {d p : Definition}

theorem rule_sound {r : Rule} (h : FreeOf Finding.IsError (ruleFindings v ds r)) : r.Sound where
  plain c hc a ha hk := by
    have hw : ((.wildcardInConsequence c, a.span) : Found) ∈ wildcardFindings r.consequence :=
      List.mem_flatMap.mpr ⟨c, hc, List.mem_filterMap.mpr ⟨a, ha, if_pos hk⟩⟩
    exact h.left _ hw rfl
  fact hr c hc := by
    have hrest := h.right
    simp only [hr] at hrest
    have hfacts := FreeOf.of_onceEach isError_key hrest.left
    refine List.eq_nil_iff_forall_not_mem.mpr fun x hx => ?_
    obtain ⟨a, ha, hax⟩ := List.mem_filterMap.mp hx
    refine hfacts (.unboundInFact x,
      a.span) (List.mem_flatMap.mpr ⟨c, hc, List.mem_filterMap.mpr ⟨a, ha, ?_⟩⟩) rfl
    rw [hax]
    rfl
  bound f hf a ha c hc x hx := by
    have hrest := h.right
    simp only [Option.mem_def.mp hf] at hrest
    have hunbound := ((FreeOf.of_onceEach isError_key hrest.left.right).of_flatMap ha).right
    by_contra hb
    obtain ⟨b, hb', hbx⟩ := List.mem_filterMap.mp hx
    refine hunbound (.unboundInConsequence x c, b.span)
      (List.mem_flatMap.mpr ⟨c, hc, List.mem_filterMap.mpr ⟨b, hb', ?_⟩⟩) rfl
    rw [hbx]
    exact if_neg hb
  hazards f hf a ha := by
    have hrest := h.right
    simp only [Option.mem_def.mp hf] at hrest
    exact ((FreeOf.of_onceEach isError_key hrest.left.right).of_flatMap ha).left.eq_nil
      fun f => isError_of_mem_hazardsFrom

theorem query_sound {q : Query} (h : FreeOf Finding.IsError (queryFindings v ds q)) :
    q.Sound := fun _ ha =>
  ((FreeOf.of_onceEach isError_key h.right).of_flatMap ha).left.eq_nil fun _ =>
    isError_of_mem_hazardsFrom

theorem query_bound {q : Query} (h : FreeOf Finding.IsPartlyUnbound (queryFindings v ds q)) :
    q.Bound := by
  intro a ha x hx
  have hunbound := ((FreeOf.of_onceEach isPartlyUnbound_key h.right).of_flatMap ha).right
  by_contra hb
  exact hunbound (.partlyUnbound x q.name, q.nameSpan)
    (List.mem_map.mpr ⟨x, List.mem_filter.mpr ⟨hx, by simpa using hb⟩, rfl⟩) rfl

theorem freeOf_itemFindings {bad : Finding → Prop} {earlier items : List Item}
    (h : FreeOf bad (itemsFindings v ds earlier items)) {i : Item} (hi : i ∈ items) :
    FreeOf bad (itemFindings v ds i) := by
  induction items generalizing earlier with
  | nil => cases hi
  | cons j items ih =>
    rw [itemsFindings] at h
    rcases List.mem_cons.mp hi with rfl | hi
    · exact h.left.right
    · exact ih h.right hi

theorem isError_of_clash {f : Finding} (h : clash? p d = some f) : f.IsError := by
  unfold clash? at h
  split_ifs at h <;> cases h <;> rfl

theorem origin_of_clash (h : clash? p d = none) : p.origin ≠ .query ∧ d.origin ≠ .query := by
  unfold clash? at h
  split_ifs at h with _ _ hq
  simpa [not_or, and_comm] using hq

/-- An accepted definition is the first of its name, or it and the first one are no queries. -/
theorem define_sound (h : FreeOf Finding.IsError (define v ds (.definition d)).2) :
    v.containsName d.name = false ∧
      (findDefinition? ds d.name = none ∧ (define v ds (.definition d)).1 = ds ++ [d] ∨
        ∃ p, findDefinition? ds d.name = some p ∧ (define v ds (.definition d)).1 = ds ∧
          p.origin ≠ .query ∧ d.origin ≠ .query) := by
  unfold define at h ⊢
  dsimp only at h ⊢
  cases hk : v.containsName d.name with
  | true =>
    rw [hk, if_pos rfl] at h
    exact (h _ (List.mem_singleton_self _) rfl).elim
  | false =>
    simp only [hk, Bool.false_eq_true, if_false] at h ⊢
    cases hfind : findDefinition? ds d.name with
    | none => exact ⟨trivial, .inl ⟨rfl, rfl⟩⟩
    | some p =>
      refine ⟨trivial, .inr ⟨p, rfl, rfl, origin_of_clash ?_⟩⟩
      rw [hfind] at h
      cases hc : clash? p d with
      | none => rfl
      | some f => exact (h (f, d.span) (by simp [hc]) (isError_of_clash hc)).elim

/-- Accepted entries define unknown names, and none that shares its name with one before is a query.
-/
theorem defineAll_sound {es : List Entry} (h : FreeOf Finding.IsError (defineAll v ds es).2) :
    (∀ e ∈ es, ∃ d, e = .definition d ∧ v.containsName d.name = false ∧
      ∀ p, findDefinition? ds d.name = some p → p.origin ≠ .query ∧ d.origin ≠ .query) ∧
    es.Pairwise Entry.Apart := by
  induction es generalizing ds with
  | nil => exact ⟨nofun, .nil⟩
  | cons e es ih =>
    have hrest := @ih (define v ds e).1 h.right
    cases e with
    | badLabel value span =>
      exact (h.left (.noPredicateName value, span) (List.mem_singleton_self _) rfl).elim
    | definition d =>
      obtain ⟨hunknown, ⟨hfind, hds⟩ | ⟨p, hfind, hds, hquery⟩⟩ := define_sound h.left
      · rw [hds] at hrest
        refine ⟨List.forall_mem_cons.mpr ⟨?_, fun e' he' => ?_⟩,
          .cons (fun e' he' d₁ d' hd₁ hd' hname => ?_) hrest.2⟩
        · exact ⟨d, rfl, hunknown, fun p hp => by rw [hfind] at hp; cases hp⟩
        · obtain ⟨d', hd', hunknown', hfirst⟩ := hrest.1 e' he'
          refine ⟨d', hd', hunknown', fun p hp => hfirst p ?_⟩
          rw [findDefinition?] at hp ⊢
          rw [List.find?_append, hp]
          rfl
        · obtain ⟨d₂, hd₂, _, hfirst⟩ := hrest.1 e' he'
          cases hd₁
          cases hd'.symm.trans hd₂
          refine hfirst d ?_
          rw [findDefinition?] at hfind ⊢
          rw [List.find?_append, ← hname, hfind]
          simp
      · rw [hds] at hrest
        refine ⟨List.forall_mem_cons.mpr ⟨?_, hrest.1⟩,
          .cons (fun e' he' d₁ d' hd₁ hd' hname => ?_) hrest.2⟩
        · exact ⟨d, rfl, hunknown, fun p' hp' => by rw [hfind] at hp'; cases hp'; exact hquery⟩
        · obtain ⟨d₂, hd₂, _, hfirst⟩ := hrest.1 e' he'
          cases hd₁
          cases hd'.symm.trans hd₂
          exact ⟨hquery.2, (hfirst p (hname ▸ hfind)).2⟩

end Check

instance : Std.Symm Entry.Apart := ⟨fun _ _ h d d' hd hd' hname => (h d' d hd' hd hname.symm).symm⟩

structure Script.Sound (v : Vocabulary) (s : Script) : Prop where
  unknown : ∀ i ∈ s.items, ∀ e ∈ entries i, ∃ d, e = .definition d ∧ v.containsName d.name = false
  apart : (s.items.flatMap entries).Pairwise Entry.Apart
  rules : ∀ r, .rule r ∈ s.items → r.Sound
  queries : ∀ q, .query q ∈ s.items → q.Sound

namespace Script

variable {v : Vocabulary} {s : Script}

theorem freeOf_errors (h : (s.check v).isOk) : FreeOf Finding.IsError (findings v s) := by
  intro f hf hb
  have hempty : Diagnostic.errors ((findings v s).map fun f => f.1.diagnostic f.2) = [] :=
    List.isEmpty_iff.mp h
  have hmem : f.1.diagnostic f.2 ∈ Diagnostic.errors
      ((findings v s).map fun f => f.1.diagnostic f.2) :=
    List.mem_filter.mpr ⟨List.mem_map.mpr ⟨f, hf, rfl⟩, decide_eq_true hb⟩
  rw [hempty] at hmem
  cases hmem

theorem sound_of_check (h : (s.check v).isOk) : s.Sound v := by
  have hfree := freeOf_errors h
  obtain ⟨hunknown, hapart⟩ := defineAll_sound (hfree.left.left)
  refine ⟨fun i hi e he => ?_, hapart, fun r hr => ?_, fun q hq => ?_⟩
  · obtain ⟨d, hd, hname, _⟩ := hunknown e (List.mem_flatMap.mpr ⟨i, hi, he⟩)
    exact ⟨d, hd, hname⟩
  · exact rule_sound (freeOf_itemFindings hfree.left.right hr)
  · exact query_sound (freeOf_itemFindings hfree.left.right hq)

theorem query_bound_of_check (h : (s.check v).isOk)
    (hw : ∀ d ∈ (s.check v).warnings, d.code ≠ "W004") {q : Query} (hq : .query q ∈ s.items) :
    q.Bound := by
  have hfree : FreeOf Finding.IsPartlyUnbound (findings v s) := by
    intro f hf hb
    have herror : ¬ f.1.severity = .error := freeOf_errors h f hf
    refine hw (f.1.diagnostic f.2) (List.mem_filter.mpr ⟨List.mem_map.mpr ⟨f, hf, rfl⟩, ?_⟩) hb
    show (!decide (f.1.severity = .error)) = true
    rw [decide_eq_false herror]
    rfl
  exact query_bound (freeOf_itemFindings hfree.left.right hq)

end Script

end GraphRules
