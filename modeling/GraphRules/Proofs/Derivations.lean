import GraphRules.Proofs.PlainScripts
import GraphRules.Proofs.Queries

/-! How rules and queries define predicates: an alternative is put under a head, and lowered to one
clause. The clauses that an engine has for a predicate of a plain script are those of its
alternatives and the facts about the graph. -/
namespace GraphRules

open Check Lowering Reference Search

def ArgKind.toTerm : ArgKind → Term
  | .var x => .named x
  | .wildcard => .named "_"
  | .symbol s => .atom s
  | .quoted s => .atom s
  | .int n => .int n
  | .float x => .number (.float x)

theorem ArgKind.isFlat_toTerm (k : ArgKind) : k.toTerm.isFlat := by cases k <;> rfl

theorem ArgKind.all_isFlat_toTerm (ks : List ArgKind) : (ks.map toTerm).all Term.isFlat := by
  rw [List.all_map]
  exact List.all_eq_true.mpr fun k _ => k.isFlat_toTerm

theorem ArgKind.mem_occurrences {ks : List ArgKind} (hks : .wildcard ∉ ks) (v : Var) :
    v ∈ Term.occurrencesList (ks.map toTerm) ↔ v.scope = 0 ∧ .var v.name ∈ ks := by
  induction ks with
  | nil => simp [Term.occurrencesList]
  | cons k ks ih =>
    obtain ⟨x, m⟩ := v
    rw [List.mem_cons, not_or] at hks
    rw [List.map_cons, Term.occurrencesList, List.mem_append, ih hks.2]
    cases k with
    | var y => simp [toTerm, Term.named, Term.occurrences]; tauto
    | wildcard => exact (hks.1 rfl).elim
    | symbol s => simp [toTerm, Term.occurrences]
    | quoted s => simp [toTerm, Term.occurrences]
    | int n => simp [toTerm, Term.int, Term.occurrences]
    | float n => simp [toTerm, Term.occurrences]

variable {ws : List String} {ts : List Term} {p : String} {head : List ArgKind} {a : List Literal}

theorem Arg.LowersAll.eq_toTerm {as : List Arg} (h : Arg.LowersAll as ws ts)
    (hw : ∀ a ∈ as, a.kind ≠ .wildcard) : ts = (as.map Arg.kind).map ArgKind.toTerm := by
  induction h with
  | nil => rfl
  | @cons a as ws ws' t ts h _ ih =>
    rw [ih fun b hb => hw b (by simp [hb]), List.map_cons, List.map_cons, List.cons.injEq]
    refine ⟨?_, rfl⟩
    have ha : a.kind ≠ .wildcard := hw a (by simp)
    unfold Arg.Lowers at h
    cases hk : a.kind with
    | wildcard => exact (ha hk).elim
    | var x => rw [hk] at h; exact h.2
    | symbol s => rw [hk] at h; exact h.2
    | quoted s => rw [hk] at h; exact h.2
    | int n => rw [hk] at h; exact h.2
    | float n => rw [hk] at h; exact h.2

/-- The alternatives of a rule. A rule without an antecedent has one, and nothing is asked for in
it. -/
def Rule.alternatives (r : Rule) : List (List Literal) :=
  match r.antecedent? with
  | none => [[]]
  | some f => f.alternatives

theorem Lowering.ruleClause_nil (h : Call) : ruleClause h [] = factClause h := by
  unfold ruleClause factClause
  rw [Literal.varsAll, List.append_nil]
  rfl

theorem Lowering.ruleClauses_eq (r : Rule) :
    ruleClauses r = r.consequence.flatMap fun h => r.alternatives.map (ruleClause h) := by
  unfold ruleClauses Rule.alternatives
  cases r.antecedent? with
  | none =>
    rw [List.map_eq_flatMap]
    exact List.flatMap_congr fun h _ => by rw [List.map_singleton, ruleClause_nil]
  | some f => rfl

/-- The script has a predicate hold of what a head stands for, if an alternative does. -/
def Script.Derives (s : Script) (p : String) (head : List ArgKind) (a : List Literal) : Prop :=
  (∃ r, .rule r ∈ s.items ∧ ∃ h ∈ r.consequence, h.name = p ∧
    h.args.map Arg.kind = head ∧ a ∈ r.alternatives) ∨
    ∃ q, .query q ∈ s.items ∧ q.name = p ∧ q.headVariables.map .var = head ∧ a ∈ q.body.alternatives

theorem Script.Derives.condition {s : Script} (h : s.Derives p head a) :
    a = [] ∨ ∃ i ∈ s.items, ∃ f, condition? i = some f ∧ a ∈ f.alternatives := by
  rcases h with ⟨r, hr, c, _, _, _, ha⟩ | ⟨q, hq, _, _, ha⟩
  · unfold Rule.alternatives at ha
    cases hf : r.antecedent? with
    | none => exact .inl (by simpa [hf] using ha)
    | some f => exact .inr ⟨_, hr, f, hf, by simpa [hf] using ha⟩
  · exact .inr ⟨_, hq, q.body, rfl, ha⟩

theorem Script.Derives.bound {s : Script} (h : s.Derives p head a)
    (hrules : ∀ r, .rule r ∈ s.items → r.Sound) (hqueries : ∀ q, .query q ∈ s.items → q.Bound) :
    .wildcard ∉ head ∧ ∀ x, .var x ∈ head → x ∈ boundBy a := by
  rcases h with ⟨r, hr, c, hc, rfl, rfl, ha⟩ | ⟨q, hq, rfl, rfl, ha⟩
  · have hsound := hrules r hr
    have hwild : .wildcard ∉ c.args.map Arg.kind := fun hmem => by
      obtain ⟨b, hb, hk⟩ := List.mem_map.mp hmem
      exact hsound.plain c hc b hb hk
    have hvars : ∀ x, .var x ∈ c.args.map Arg.kind → x ∈ c.vars := fun x hx => by
      obtain ⟨b, hb, hk⟩ := List.mem_map.mp hx
      exact List.mem_filterMap.mpr ⟨b, hb, by rw [Arg.varName?, hk]⟩
    refine ⟨hwild, fun x hx => ?_⟩
    unfold Rule.alternatives at ha
    cases hf : r.antecedent? with
    | none =>
      have hx' := hvars x hx
      rw [hsound.fact hf c hc] at hx'
      cases hx'
    | some f =>
      rw [hf] at ha
      exact hsound.bound f hf a ha c hc x (hvars x hx)
  · exact ⟨by simp, fun x hx => hqueries q hq a ha x (by simpa using hx)⟩

structure Clause.Lowers (c : Clause) (p : String) (head : List ArgKind)
    (a : List Literal) (ws : List String) : Prop where
  head_eq : c.head = .apply p (head.map ArgKind.toTerm)
  body : Literal.LowersAll a ws c.body
  nodup : ws.Nodup
  free : ∀ w ∈ ws, .var w ∉ head ∧ w ∉ Literal.varsAll a

theorem Lowering.ruleClause_lowers {h : Call} (hplain : ∀ a ∈ h.args, a.kind ≠ .wildcard)
    (a : List Literal) : ∃ ws, (ruleClause h a).Lowers h.name (h.args.map Arg.kind) a ws := by
  obtain ⟨_, ts, hts, hcall, _⟩ := lowerCall_spec (h.vars ++ Literal.varsAll a) h 0
  obtain ⟨ws, hbody, hn⟩ := lowerLiterals_spec (h.vars ++ Literal.varsAll a) a (lowerCall _ h 0).2
  refine ⟨ws, ⟨hcall.trans (by rw [hts.eq_toTerm hplain]), hbody, hn.nodup, fun w hw => ?_⟩⟩
  have hfree := hn.free w hw
  rw [List.mem_append, not_or] at hfree
  refine ⟨fun hmem => hfree.1 ?_, hfree.2⟩
  obtain ⟨b, hb, hk⟩ := List.mem_map.mp hmem
  exact List.mem_filterMap.mpr ⟨b, hb, by rw [Arg.varName?, hk]⟩

theorem Lowering.queryClause_lowers {q : Query} (hbound : q.Bound) (ha : a ∈ q.body.alternatives) :
    ∃ ws, (queryClause q.name q.headVariables a).Lowers q.name (q.headVariables.map .var) a ws := by
  obtain ⟨ws, hbody, hn⟩ := lowerLiterals_spec (Literal.varsAll a) a 0
  refine ⟨ws, ⟨by rw [List.map_map]; rfl, hbody, hn.nodup, fun w hw =>
    ⟨fun hmem => ?_, hn.free w hw⟩⟩⟩
  refine hn.free w hw (Literal.mem_varsAll_of_boundBy (hbound a ha w ?_))
  simpa using hmem

theorem Script.IsName.not_mem_symbols (h : IsName p) : p ∉ [",", ";"] ++ comparisonNames := by
  have hsymbols : ∀ x ∈ [",", ";"] ++ comparisonNames, x.toList.head?.any Char.isLower = false := by
    decide
  intro hp
  obtain ⟨c, cs, hcs, hc⟩ := h
  have hlower := hsymbols p hp
  rw [hcs] at hlower
  exact absurd hc (by simpa using hlower)

theorem Search.task_apply (hreserved : p ∉ ["true", "fail", "false", "not"])
    (hsymbols : p ∉ [",", ";"] ++ comparisonNames) (args : List Term) :
    task (.apply p args) = .call ⟨p, args.length⟩ := by
  simp only [List.mem_append, List.mem_cons, List.not_mem_nil, or_false,
    not_or] at hreserved hsymbols
  match args with
  | [] => simp [Term.apply, task_atom, hreserved]
  | [a] => simp [Term.apply, task_one, hreserved]
  | [a, b] => simp [Term.apply, task_two, hsymbols]
  | a :: b :: c :: args => exact task_other p (by simp) (by simp)

theorem mem_callVars_of_boundBy (hlow : Literal.LowersAll a ws ts)
    (htask : ∀ c, .call c ∈ a →
      ∀ args ≠ [], task (.apply c.name args) = .call ⟨c.name, args.length⟩) {x : String}
    (hx : x ∈ boundBy a) : ⟨x, 0⟩ ∈ callVars ts := by
  induction a generalizing ws ts with
  | nil => cases hx
  | cons l a ih =>
    obtain ⟨ws₁, ws₂, t, rest, hl, hls, rfl, rfl⟩ := hlow
    rw [boundBy, List.flatMap_cons, List.mem_append] at hx
    rcases hx with hx | hx
    · cases l with
      | call c =>
        obtain ⟨args, hargs, rfl⟩ := hl
        have hmem : ⟨x, 0⟩ ∈ Term.occurrencesList args :=
          (hargs.mem_occurrences ⟨x, 0⟩).mpr ⟨rfl, .inl hx⟩
        have hne : args ≠ [] := by rintro rfl; cases hmem
        exact ⟨_, List.mem_cons_self,
          ⟨_, htask c (by simp) args hne⟩, by rwa [Term.occurrences_apply]⟩
      | negated f span => cases hx
      | compare c => cases hx
      | group f => cases hx
    · obtain ⟨t', ht', hcall, hv⟩ := ih hls (fun c hc => htask c (by simp [hc])) hx
      exact ⟨t', List.mem_cons_of_mem _ ht', hcall, hv⟩

/-- A plain script that was accepted without a warning of unbound answer variables, and its program.
-/
structure Script.Accepted (s : Script) (program : Program) (negations : Bool) : Prop extends
    s.Compiled program where
  bound : ∀ q, .query q ∈ s.items → q.Bound
  plain : s.isPlain negations

theorem Script.accepted_of_compile {source : String} {s : Script} {program : Program}
    {threshold : Nat} {negations : Bool} (hparse : Script.parse source = .ok s)
    (hcompile : (Compiler.standard threshold).compile source = .ok program)
    (hwarnings : ∀ w ∈ program.warnings, w.code ≠ "W004") (hplain : s.isPlain negations) :
    s.Accepted program negations := by
  obtain ⟨hok, _, hkept⟩ := Compiler.compile_eq_ok hparse hcompile
  exact ⟨compiled_of_compile hparse hcompile,
    fun q hq => query_bound_of_check hok (fun w hw => hwarnings w (hkept w hw)) hq, hplain⟩

namespace Script.Accepted

variable {s : Script} {program : Program} {negations : Bool} {p : String} {g : Graph}
  {head : List ArgKind} {a : List Literal} {limits : Limits}

theorem derived_cases (h : s.Accepted program negations) (hp : s.isDerived p) :
    p ∈ structuralNames ∨ (Compiler.standard 0).vocabulary.containsName p = false ∧ IsName p := by
  rw [isDerived, Bool.or_eq_true, Bool.and_eq_true, decide_eq_true_eq, decide_eq_true_eq] at hp
  refine hp.imp_right fun hp => ?_
  obtain ⟨i, hi, hp⟩ := List.mem_flatMap.mp hp.1
  have hread := h.readable i hi
  cases i with
  | labels d => cases hp
  | rule r =>
    obtain ⟨c, hc, rfl⟩ := List.mem_map.mp hp
    exact ⟨h.unknown hi (List.mem_map_of_mem hc), hread c hc⟩
  | query q =>
    obtain rfl := List.mem_singleton.mp hp
    exact ⟨h.unknown hi (List.mem_singleton_self _), hread.1⟩

theorem task_apply (h : s.Accepted program negations) (hp : s.isDerived p) (args : List Term) :
    task (.apply p args) = .call ⟨p, args.length⟩ := by
  rcases h.derived_cases hp with hp | ⟨hunknown, hname⟩
  · have hshape : ∀ x ∈ structuralNames, x ∉ ["true", "fail", "false", "not"] ∧
        x ∉ [",", ";"] ++ comparisonNames := by
      decide
    exact Search.task_apply (hshape p hp).1 (hshape p hp).2 args
  · refine Search.task_apply (fun hmem => ?_) hname.not_mem_symbols args
    have hknown := Compiler.containsName_standard 0 p (List.mem_append_left _ (by grind))
    rw [hunknown] at hknown
    cases hknown

theorem isForeign_eq_false (h : s.Accepted program negations) (hp : s.isDerived p) (n : Nat)
    (g : Graph) : (Standard.library g).isForeign ⟨p, n⟩ = false := by
  rw [Bool.eq_false_iff, ne_eq, Standard.isForeign_iff]
  intro hforeign
  have hmem := List.mem_map_of_mem (f := Signature.name) hforeign
  rcases h.derived_cases hp with hp | ⟨hunknown, _⟩
  · have hshape : ∀ x ∈ structuralNames,
        x ∉ (Standard.declarations.predicates.map Predicate.signature).map Signature.name := by
      decide
    exact hshape p hp hmem
  · have hknown := Compiler.containsName_standard 0 p (List.mem_append_right _ hmem)
    rw [hunknown] at hknown
    cases hknown

theorem isDerived_query (h : s.Accepted program negations) {q : Query} (hq : .query q ∈ s.items) :
    s.isDerived q.name := by
  have hdefined : q.name ∈ s.items.flatMap Item.defined :=
    List.mem_flatMap.mpr ⟨_, hq, List.mem_singleton_self _⟩
  have hlabelled : q.name ∉ s.items.flatMap Item.labelled := by
    intro hmem
    obtain ⟨i, hi, hmem⟩ := List.mem_flatMap.mp hmem
    cases i with
    | rule r => cases hmem
    | query q' => cases hmem
    | labels d =>
      obtain ⟨l, hl, hname⟩ := List.mem_map.mp hmem
      have hlabel : .definition ⟨l.predicate, 1, .label, l.span⟩ ∈ s.items.flatMap entries :=
        List.mem_flatMap.mpr ⟨_, hi, h.label_mem_entries hi hl⟩
      have hquery : q.entry ∈ s.items.flatMap entries :=
        List.mem_flatMap.mpr ⟨.query q, hq, List.mem_singleton_self _⟩
      have happart := h.sound.apart.forall hlabel hquery (by simp [Query.entry])
      exact (happart _ _ rfl rfl hname).2 rfl
  simp [isDerived, hdefined, hlabelled]

/-- What the check has seen to in an alternative under a head. -/
theorem derives_sound (h : s.Accepted program negations) (hd : s.Derives p head a) :
    .wildcard ∉ head ∧ (∀ x, .var x ∈ head → x ∈ boundBy a) ∧ (∃ outside, hazards outside a = []) ∧
      ∀ l ∈ a, l.Simple s.isDerived negations := by
  have hplain : ∀ l ∈ a, l.Simple s.isDerived negations := by
    rcases hd.condition with rfl | ⟨i, hi, f, hf, ha⟩
    · nofun
    · have huses : f.uses s.isDerived negations :=
        List.all_eq_true.mp h.plain _ (List.mem_filterMap.mpr ⟨i, hi, hf⟩)
      exact Formula.simple_of_mem_alternatives huses a ha
  obtain ⟨hwild, hbound⟩ := hd.bound h.sound.rules h.bound
  refine ⟨hwild, hbound, ?_, hplain⟩
  rcases hd with ⟨r, hr, c, hc, rfl, rfl, ha⟩ | ⟨q, hq, rfl, rfl, ha⟩
  · unfold Rule.alternatives at ha
    cases hf : r.antecedent? with
    | none =>
      rw [hf] at ha
      obtain rfl := List.mem_singleton.mp ha
      exact ⟨[], rfl⟩
    | some f =>
      rw [hf] at ha
      exact ⟨_, (h.sound.rules r hr).hazards f hf a ha⟩
  · exact ⟨[], h.sound.queries q hq a ha⟩

/-- The clauses of a predicate come from the graph, and from alternatives under heads. -/
theorem clause_cases (h : s.Accepted program negations) (hp : s.isDerived p) {n : Nat} {c : Clause}
    (hc : c ∈ (program.engine g limits).clausesOf ⟨p, n⟩) :
    c ∈ Standard.shapeFacts g ∨ ∃ head a ws, s.Derives p head a ∧ c.Lowers p head a ws := by
  obtain ⟨hc, hsig⟩ := Program.mem_clausesOf_engine.mp hc
  refine hc.imp_right fun hc => ?_
  rw [h.clauses] at hc
  obtain ⟨i, hi, hc⟩ := List.mem_flatMap.mp hc
  cases i with
  | labels d =>
    obtain ⟨l, hl, rfl⟩ := List.mem_map.mp hc
    cases hsig
    have hlabelled : l.predicate ∈ s.items.flatMap Item.labelled :=
      List.mem_flatMap.mpr ⟨_, hi, List.mem_map_of_mem hl⟩
    have hstructural : l.predicate ∈ structuralNames := by simpa [isDerived, hlabelled] using hp
    exact (h.name_ne hi (h.label_mem_entries hi hl)
      (by simp only [structuralNames] at hstructural; grind) rfl).elim
  | rule r =>
    simp only [itemClauses, ruleClauses_eq] at hc
    obtain ⟨k, hk, hc⟩ := List.mem_flatMap.mp hc
    obtain ⟨a, ha, rfl⟩ := List.mem_map.mp hc
    obtain ⟨ws, hlow⟩ := ruleClause_lowers ((h.sound.rules r hi).plain k hk) a
    rw [Clause.signature?, hlow.head_eq, Term.signature_apply] at hsig
    cases hsig
    exact ⟨_, a, ws, .inl ⟨r, hi, k, hk, rfl, rfl, ha⟩, hlow⟩
  | query q =>
    rcases List.mem_cons.mp hc with rfl | hc
    · cases hsig
      rcases h.derived_cases hp with hp | ⟨hunknown, _⟩
      · exact absurd hp (by decide)
      · rw [Compiler.containsName_standard 0 "query" (by simp)] at hunknown
        cases hunknown
    · obtain ⟨a, ha, rfl⟩ := List.mem_map.mp hc
      obtain ⟨ws, hlow⟩ := queryClause_lowers (h.bound q hi) ha
      rw [Clause.signature?, hlow.head_eq, Term.signature_apply] at hsig
      cases hsig
      exact ⟨_, a, ws, .inr ⟨q, hi, rfl, rfl, ha⟩, hlow⟩

theorem exists_clause (h : s.Accepted program negations) (hd : s.Derives p head a) (g : Graph)
    (limits : Limits) :
    ∃ ws, ∃ c ∈ (program.engine g limits).clausesOf ⟨p, head.length⟩, c.Lowers p head a ws := by
  have hmem : ∀ {c : Clause} {ws : List String} {i : Item}, i ∈ s.items →
      c ∈ itemClauses i → c.Lowers p head a ws →
      ∃ ws, ∃ c ∈ (program.engine g limits).clausesOf ⟨p, head.length⟩, c.Lowers p head a ws := by
    intro c ws i hi hc hlow
    refine ⟨ws, c, Program.mem_clausesOf_engine.mpr ⟨.inr ?_, ?_⟩, hlow⟩
    · rw [h.clauses]
      exact List.mem_flatMap.mpr ⟨i, hi, hc⟩
    · rw [Clause.signature?, hlow.head_eq, Term.signature_apply, List.length_map]
  rcases hd with ⟨r, hr, k, hk, rfl, rfl, ha⟩ | ⟨q, hq, rfl, rfl, ha⟩
  · obtain ⟨ws, hlow⟩ := ruleClause_lowers ((h.sound.rules r hr).plain k hk) a
    refine hmem hr ?_ hlow
    simp only [itemClauses, ruleClauses_eq]
    exact List.mem_flatMap.mpr ⟨k, hk, List.mem_map_of_mem ha⟩
  · obtain ⟨ws, hlow⟩ := queryClause_lowers (h.bound q hq) ha
    exact hmem hq (List.mem_cons_of_mem _ (List.mem_map_of_mem ha)) hlow

/-- The clauses of a predicate are safe, and the calls of their bodies have the variables of their
heads. -/
theorem clause_safe (h : s.Accepted program negations) (hp : s.isDerived p) {n : Nat} {c : Clause}
    (hc : c ∈ (program.engine g limits).clausesOf ⟨p, n⟩) :
    ∃ args : List Term, c.head = .apply p args ∧ args.all Term.isFlat ∧
      Safe (s.isDerived ·) negations {x | ∃ v ∈ Term.occurrencesList args, v.name = x} ∅ c.body ∧
      ∀ m, ∀ v ∈ Term.occurrencesList (Term.renameList m args),
      v ∈ callVars (Term.renameList m c.body) := by
  rcases h.clause_cases hp hc with hfact | ⟨head, a, ws, hd, hlow⟩
  · obtain ⟨name, ids, _, hids, rfl⟩ := Program.shapeFacts_flat hfact
    have hsig := (Program.mem_clausesOf_engine.mp hc).2
    rw [Clause.signature?, Program.head_fact hids, Term.signature_apply] at hsig
    cases hsig
    refine ⟨ids.map .atom, Program.head_fact hids, ?_, .nil ∅, fun m v hv => ?_⟩
    · rw [List.all_map]
      exact List.all_eq_true.mpr fun _ _ => rfl
    · rw [Term.occurrencesList_rename, Term.occurrencesList_atoms] at hv
      cases hv
  · obtain ⟨hwild, hbound, ⟨outside, hhazards⟩, hsimple⟩ := h.derives_sound hd
    refine ⟨head.map ArgKind.toTerm, hlow.head_eq, ArgKind.all_isFlat_toTerm head, ?_,
      fun m v hv => ?_⟩
    · refine safe_of_hazardsFrom hlow.body hsimple (fun x hx => .inr ?_) (fun w hw hmem => ?_)
        (List.forall_mem_nil _) hhazards
      · obtain ⟨v, hv, rfl⟩ := hx
        exact hbound v.name ((ArgKind.mem_occurrences hwild v).mp hv).2
      · obtain ⟨v, hv, rfl⟩ := hmem
        exact (hlow.free v.name hw).1 ((ArgKind.mem_occurrences hwild v).mp hv).2
    · rw [Term.occurrencesList_rename] at hv
      obtain ⟨w, hw, rfl⟩ := List.mem_map.mp hv
      have htask : ∀ c, .call c ∈ a → ∀ args ≠ [],
          task (.apply c.name args) = .call ⟨c.name, args.length⟩ := by
        intro c hc args _
        rcases hsimple _ hc with ⟨c', heq, hp⟩ | ⟨f, span, heq, _⟩
        · cases heq
          exact h.task_apply hp args
        · cases heq
      obtain ⟨hscope, hhead⟩ := (ArgKind.mem_occurrences hwild w).mp hw
      have hmem : w ∈ callVars _ :=
        hscope ▸ mem_callVars_of_boundBy hlow.body htask (hbound w.name hhead)
      exact callVars_rename hmem m

/-- An engine with the program is sane for every interpretation that agrees with the clauses. -/
theorem sane (h : s.Accepted program negations) {I : Interpretation}
    (hmeaning : ∀ p cs, s.isDerived p →
    (I p cs ↔ ∃ c ∈ (program.engine g limits).clausesOf ⟨p, cs.length⟩,
      ∃ ρ : Assignment, c.head.args.map (Term.constant ρ.toValuation) = cs ∧ I.Holds ρ ∅ c.body)) :
    Sane (program.engine g limits) (s.isDerived ·) negations I :=
  ⟨fun _ args hp => h.task_apply hp args, fun _ n hp => h.isForeign_eq_false hp n g,
    fun _ _ hp _ hc => h.clause_safe hp hc, hmeaning⟩

end Script.Accepted

end GraphRules
