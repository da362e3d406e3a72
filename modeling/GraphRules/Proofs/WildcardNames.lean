import GraphRules.Proofs.QueryAnswers

/-! Wildcards stand for nothing else. The variable that lowering puts for a wildcard occurs once in
its clause, with one exception: a query's head has the variables of all alternatives, and in an
alternative that does not use one of them, a wildcard may be given its name. -/
namespace GraphRules

open Lowering

variable {ws : List String} {t : Term} {ts : List Term}

theorem Arg.Lowers.count_occurrences {a : Arg} (h : a.Lowers ws t) (x : String) :
    t.occurrences.count ⟨x, 0⟩ = a.varName?.toList.count x + ws.count x := by
  unfold Arg.Lowers at h
  unfold Arg.varName?
  split at h
  case h_2 hk =>
    obtain ⟨w, rfl, rfl⟩ := h; simp [hk, Term.named, Term.occurrences, List.count_singleton]
  all_goals
    rename_i hk
    obtain ⟨rfl, rfl⟩ := h
    simp [hk, Term.named, Term.int, Term.occurrences, List.count_singleton]

theorem Arg.LowersAll.count_occurrences {as : List Arg} (h : Arg.LowersAll as ws ts) (x : String) :
    (Term.occurrencesList ts).count ⟨x, 0⟩ = (as.filterMap Arg.varName?).count x + ws.count x := by
  induction h with
  | nil => rfl
  | @cons a as ws ws' t ts h _ ih =>
    have ha := h.count_occurrences x
    have hvars : (a :: as).filterMap Arg.varName? = a.varName?.toList ++
        as.filterMap Arg.varName? := by
      cases hv : a.varName? <;> simp [hv]
    simp only [Term.occurrencesList, hvars, List.count_append]
    omega

-- The counts follow the tree, as the lists of variables do.
mutual

theorem Literal.Lowers.count_occurrences :
    ∀ {l : Literal} {ws : List String} {t : Term}, l.Lowers ws t →
    ∀ x, t.occurrences.count ⟨x, 0⟩ = l.vars.count x + ws.count x
  | .call c, _, _, h, x => by
    obtain ⟨ts, hts, rfl⟩ := h
    rw [Term.occurrences_apply, hts.count_occurrences x]
    rfl
  | .negated f _, _, _, h, x => by
    obtain ⟨u, hu, rfl⟩ := h
    have hcount := Formula.Lowers.count_occurrences hu x
    simpa [Term.occurrences, Term.occurrencesList, Literal.vars] using hcount
  | .compare c, _, _, h, x => by
    obtain ⟨l, r, hlr, rfl⟩ := h
    have hcount := hlr.count_occurrences x
    rwa [c.filterMap_varName] at hcount
  | .group f, _, _, h, x => Formula.Lowers.count_occurrences (f := f) h x

theorem Formula.Lowers.count_occurrences :
    ∀ {f : Formula} {ws : List String} {t : Term}, f.Lowers ws t →
    ∀ x, t.occurrences.count ⟨x, 0⟩ = f.vars.count x + ws.count x
  | .mk ds _, _, _, h, x => by
    obtain ⟨ts, hts, rfl⟩ := h
    rw [Term.Joins.disjunction.occurrences]
    exact Formula.LowersAny.count_occurrences hts x

theorem Formula.LowersAny.count_occurrences :
    ∀ {ds : List (List Literal)} {ws : List String} {ts : List Term}, Formula.LowersAny ds ws ts →
      ∀ x, (Term.occurrencesList ts).count ⟨x, 0⟩ = (Formula.varsAll ds).count x + ws.count x
  | [], _, _, h, x => by obtain ⟨rfl, rfl⟩ := h; rfl
  | c :: cs, _, _, h, x => by
    obtain ⟨ws₁, ws₂, us, rest, hc, hcs, rfl, rfl⟩ := h
    have h₁ := Literal.LowersAll.count_occurrences hc x
    have h₂ := Formula.LowersAny.count_occurrences hcs x
    simp only [Term.occurrencesList, Term.Joins.conjunction.occurrences,
      Formula.varsAll, List.count_append]
    omega

theorem Literal.LowersAll.count_occurrences :
    ∀ {ls : List Literal} {ws : List String} {ts : List Term}, Literal.LowersAll ls ws ts →
      ∀ x, (Term.occurrencesList ts).count ⟨x, 0⟩ = (Literal.varsAll ls).count x + ws.count x
  | [], _, _, h, x => by obtain ⟨rfl, rfl⟩ := h; rfl
  | l :: ls, _, _, h, x => by
    obtain ⟨ws₁, ws₂, t, rest, hl, hls, rfl, rfl⟩ := h
    have h₁ := Literal.Lowers.count_occurrences hl x
    have h₂ := Literal.LowersAll.count_occurrences hls x
    simp only [Term.occurrencesList, Literal.varsAll, List.count_append]
    omega

end

def Clause.countName (c : Clause) (x : String) : Nat :=
  (c.head.occurrences ++ Term.occurrencesList c.body).count ⟨x, 0⟩

structure Clause.Fills (c : Clause) (p : String) (args : List Arg) (a : List Literal)
    (us vs : List String) : Prop where
  head : ∃ ts, Arg.LowersAll args us ts ∧ c.head = .apply p ts
  body : Literal.LowersAll a vs c.body

theorem Clause.Fills.countName {c : Clause} {p : String} {args : List Arg} {a : List Literal}
    {us vs : List String} (h : c.Fills p args a us vs) (x : String) :
    c.countName x =
      (args.filterMap Arg.varName?).count x + (Literal.varsAll a).count x + (us ++ vs).count x := by
  obtain ⟨ts, hargs, hhead⟩ := h.head
  have h₁ := hargs.count_occurrences x
  have h₂ := h.body.count_occurrences x
  rw [Clause.countName, hhead, Term.occurrences_apply]
  simp only [List.count_append]
  omega

def Query.headArgs (q : Query) : List Arg := q.headVariables.map fun x => ⟨.var x, q.nameSpan⟩

theorem Query.varNames_headArgs (q : Query) :
    q.headArgs.filterMap Arg.varName? = q.headVariables := by
  simp [Query.headArgs, List.filterMap_map, Function.comp_def, Arg.varName?]

namespace Lowering

theorem ruleClause_fills (h : Call) (a : List Literal) :
    ∃ us vs, (ruleClause h a).Fills h.name h.args a us vs ∧ (us ++ vs).Nodup ∧
      ∀ w ∈ us ++ vs, w ∉ h.vars ∧ w ∉ Literal.varsAll a := by
  obtain ⟨us, ts, hargs, hhead, hn⟩ := lowerCall_spec (h.vars ++ Literal.varsAll a) h 0
  obtain ⟨vs, hbody, hn'⟩ := lowerLiterals_spec (h.vars ++ Literal.varsAll a) a (lowerCall _ h 0).2
  have hall := hn.append hn'
  refine ⟨us, vs, ⟨⟨ts, hargs, hhead⟩, hbody⟩, hall.nodup, fun w hw => ?_⟩
  simpa [not_or] using hall.free w hw

theorem queryClause_fills (q : Query) (a : List Literal) :
    ∃ vs, (queryClause q.name q.headVariables a).Fills q.name q.headArgs a [] vs ∧ vs.Nodup ∧
      ∀ w ∈ vs, w ∉ Literal.varsAll a := by
  obtain ⟨vs, hbody, hn⟩ := lowerLiterals_spec (Literal.varsAll a) a 0
  have hargs : ∀ xs : List String,
      Arg.LowersAll (xs.map fun x => ⟨.var x, q.nameSpan⟩) [] (xs.map .named) := by
    intro xs
    induction xs with
    | nil => exact .nil
    | cons x xs ih =>
      have hx : Arg.Lowers ⟨.var x, q.nameSpan⟩ [] (.named x) := ⟨rfl, rfl⟩
      exact .cons hx ih
  exact ⟨vs, ⟨⟨_, hargs _, rfl⟩, hbody⟩, hn.nodup, hn.free⟩

end Lowering

/-- In a rule, a fact and a goal, every wildcard becomes a variable that occurs nowhere else. In a
clause of a query it occurs nowhere else in the body, and in the head exactly if it is the name of
an answer variable, which is then one of other alternatives only. -/
theorem wildcard_occurs_once (r : Rule) (q : Query) (f : Formula) :
    (∀ c ∈ ruleClauses r, ∃ h ∈ r.consequence, ∃ a ∈ r.alternatives, c = ruleClause h a ∧
      ∃ us vs, c.Fills h.name h.args a us vs ∧ ∀ w ∈ us ++ vs, c.countName w = 1) ∧
    (∀ c ∈ queryClauses q, c = queryFact q.name q.headVariables.length ∨
      ∃ a ∈ q.body.alternatives, c = queryClause q.name q.headVariables a ∧
        ∃ vs, c.Fills q.name q.headArgs a [] vs ∧
        ∀ w ∈ vs, (Term.occurrencesList c.body).count ⟨w, 0⟩ = 1 ∧ w ∉ Literal.varsAll a ∧
          (c.countName w = 1 ↔ w ∉ q.headVariables)) ∧
    ∃ ws, f.Lowers ws (lowerGoal f) ∧ ∀ w ∈ ws, (lowerGoal f).occurrences.count ⟨w, 0⟩ = 1 := by
  refine ⟨fun c hc => ?_, fun c hc => ?_, ?_⟩
  · rw [ruleClauses_eq] at hc
    obtain ⟨h, hh, hc⟩ := List.mem_flatMap.mp hc
    obtain ⟨a, ha, rfl⟩ := List.mem_map.mp hc
    obtain ⟨us, vs, hfills, hnodup, hfree⟩ := ruleClause_fills h a
    refine ⟨h, hh, a, ha, rfl, us, vs, hfills, fun w hw => ?_⟩
    have hhead : (h.args.filterMap Arg.varName?).count w = 0 :=
      List.count_eq_zero.mpr (hfree w hw).1
    have hbody := List.count_eq_zero.mpr (hfree w hw).2
    have hone := List.count_eq_one_of_mem hnodup hw
    have hcount := hfills.countName w
    omega
  · refine (List.mem_cons.mp hc).imp id fun hc => ?_
    obtain ⟨a, ha, rfl⟩ := List.mem_map.mp hc
    obtain ⟨vs, hfills, hnodup, hfree⟩ := queryClause_fills q a
    refine ⟨a, ha, rfl, vs, hfills, fun w hw => ?_⟩
    have halt := List.count_eq_zero.mpr (hfree w hw)
    have hone := List.count_eq_one_of_mem hnodup hw
    have hbody := hfills.body.count_occurrences w
    have hcount := hfills.countName w
    rw [q.varNames_headArgs, List.nil_append] at hcount
    have hhead : q.headVariables.count w = 0 ↔ w ∉ q.headVariables := List.count_eq_zero
    exact ⟨by omega, hfree w hw, by rw [← hhead]; omega⟩
  · obtain ⟨ws, hlow, hn⟩ := lowerFormula_spec f.vars f 0
    refine ⟨ws, hlow, fun w hw => ?_⟩
    have hvars := List.count_eq_zero.mpr (hn.free w hw)
    have hone := List.count_eq_one_of_mem hn.nodup hw
    have hcount : (lowerGoal f).occurrences.count ⟨w, 0⟩ = f.vars.count w + ws.count w :=
      hlow.count_occurrences w
    omega

def wildcardSource : String :=
  "edge(_G1, _, E), not edge(E, _) -> plain(E).\nquery joined: node(_G1); edge(_, X).\n"

theorem wildcard_occurs_once_plain :
    ∃ s r c, Script.parse wildcardSource = .ok s ∧ .rule r ∈ s.items ∧ c ∈ ruleClauses r ∧
      c.countName "_G2" = 1 ∧ ∃ h ∈ r.consequence, ∃ a ∈ r.alternatives,
        ∃ us vs, c.Fills h.name h.args a us vs ∧ ∀ w ∈ us ++ vs, c.countName w = 1 := by
  obtain ⟨s, hparse, hs⟩ :=
    exists_ok_of_any (r := Script.parse wildcardSource) (P := fun s => s.items.any fun
    | .rule r => (ruleClauses r).any fun c => c.countName "_G2" = 1
    | _ => false) (by decide +kernel)
  obtain ⟨i, hi, hr⟩ := List.any_eq_true.mp hs
  match i, hi, hr with
  | .rule r, hi, hr =>
    obtain ⟨c, hc, hcount⟩ := List.any_eq_true.mp hr
    obtain ⟨h, hh, a, ha, _, us, vs, hfills, hone⟩ :=
      (wildcard_occurs_once r default default).1 c hc
    exact ⟨s, r, c, hparse, hi, hc, of_decide_eq_true hcount, h, hh, a, ha, us, vs, hfills, hone⟩

/-- The wildcard of the second alternative is given the name of the variable of the first, which the
head has. -/
theorem wildcard_captured :
    ∃ s q a vs, Script.parse wildcardSource = .ok s ∧ .query q ∈ s.items ∧ a ∈ q.body.alternatives ∧
      (queryClause q.name q.headVariables a).Fills q.name q.headArgs a [] vs ∧ "_G1" ∈ vs ∧
      (queryClause q.name q.headVariables a).countName "_G1" = 2 := by
  obtain ⟨s, hparse, hs⟩ := exists_ok_of_any (r := Script.parse wildcardSource) (P := fun s =>
    s.items.any fun i =>
    i.query?.any fun q => q.body.alternatives.any fun a => q.headVariables.count "_G1" = 1 ∧
      (Literal.varsAll a).count "_G1" = 0 ∧
      (queryClause q.name q.headVariables a).countName "_G1" = 2)
    (by decide +kernel)
  obtain ⟨q, hi, hq⟩ := Script.exists_query_of_any hs
  obtain ⟨a, ha, hcounts⟩ := List.any_eq_true.mp hq
  obtain ⟨hhead, hbody, htwo⟩ := of_decide_eq_true hcounts
  obtain ⟨vs, hfills, _, _⟩ := queryClause_fills q a
  have hcount := hfills.countName "_G1"
  rw [q.varNames_headArgs, List.nil_append] at hcount
  have hmem : 0 < vs.count "_G1" := by omega
  exact ⟨s, q, a, vs, hparse, hi, ha, hfills, List.count_pos_iff.mp hmem, htwo⟩

end GraphRules
