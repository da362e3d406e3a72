import GraphRules.Proofs.DeclaredQueries

/-! The names that a script declares. A definition is compared with the first one of its name and
with no other. So labels and queries declare different names, unless a rule has come first: labels
may then declare its name again and again. -/
namespace GraphRules

open Check

namespace Check

variable {v : Vocabulary} {ds : List Definition} {d p : Definition}

def Entry.definition? : Entry → Option Definition
  | .definition d => some d
  | .badLabel _ _ => none

theorem clash_eq_none (h : FreeOf Finding.IsError (define v ds (.definition d)).2)
    (hp : findDefinition? ds d.name = some p) : clash? p d = none := by
  cases hclash : clash? p d with
  | none => rfl
  | some f =>
    have hunknown := (define_sound h).1
    unfold define at h
    simp only [hunknown, hp, hclash, Bool.false_eq_true, if_false] at h
    exact (h (f, d.span) (by simp) (isError_of_clash hclash)).elim

theorem findDefinition?_append (ds es : List Definition) (name : String) :
    findDefinition? (ds ++ es) name = (findDefinition? ds name).or (findDefinition? es name) :=
  List.find?_append

theorem findDefinition?_define (h : FreeOf Finding.IsError (define v ds (.definition d)).2)
    (name : String) :
    findDefinition? (define v ds (.definition d)).1 name = findDefinition? (ds ++ [d]) name := by
  obtain ⟨_, ⟨_, hnew⟩ | ⟨p, hfind, hold, _⟩⟩ := define_sound h
  · rw [hnew]
  · rw [hold, findDefinition?_append]
    by_cases hname : d.name = name
    · rw [← hname, hfind]
      rfl
    · simp [findDefinition?, hname]

theorem clash_of_first {pre post : List Entry}
    (h : FreeOf Finding.IsError (defineAll v ds (pre ++ .definition d :: post)).2)
    (hp : findDefinition? (ds ++ pre.filterMap Entry.definition?) d.name = some p) :
    clash? p d = none := by
  induction pre generalizing ds with
  | nil => exact clash_eq_none h.left (by simpa using hp)
  | cons e pre ih =>
    cases e with
    | badLabel value span =>
      exact (h.left (.noPredicateName value, span) (List.mem_singleton_self _) rfl).elim
    | definition e =>
      refine @ih (define v ds (.definition e)).1 h.right ?_
      rw [findDefinition?_append, findDefinition?_define h.left,
        ← findDefinition?_append, List.append_assoc]
      exact hp

theorem map_definition? {es : List Entry} (h : ∀ e ∈ es, ∃ d, e = .definition d) :
    (es.filterMap Entry.definition?).map .definition = es := by
  induction es with
  | nil => rfl
  | cons e es ih =>
    obtain ⟨d, rfl⟩ := h e (List.mem_cons_self ..)
    rw [List.filterMap_cons, Entry.definition?, List.map_cons, ih fun e' he' =>
      h e' (List.mem_cons_of_mem _ he')]

end Check

namespace Item

/-- The names that an item declares for itself: those of its labels, or that of its query. -/
def declared : Item → List String
  | .labels d => d.labels.map Label.predicate
  | .rule _ => []
  | .query q => [q.name]

def concluded : Item → List String
  | .labels _ => []
  | .rule r => r.consequence.map Call.name
  | .query _ => []

def definitions (i : Item) : List Definition := (entries i).filterMap Entry.definition?

theorem declared_eq {i : Item} (h : ∀ e ∈ entries i, ∃ d, e = .definition d) :
    i.declared = (i.definitions.filter (·.origin.isTopLevel)).map Definition.name := by
  cases i with
  | labels d =>
    have hentry : ∀ l ∈ d.labels, labelEntry l = .definition ⟨l.predicate, 1, .label, l.span⟩ := by
      intro l hl
      obtain ⟨e, he⟩ := h (labelEntry l) (List.mem_map_of_mem hl)
      unfold labelEntry at he ⊢
      split_ifs at he ⊢
      rfl
    have hall : d.labels.map labelEntry =
        (d.labels.map fun l => (⟨l.predicate, 1, .label, l.span⟩ : Definition)).map
          .definition := by
      rw [List.map_map]
      exact List.map_congr_left hentry
    rw [definitions, entries, hall, List.filterMap_map]
    simp [declared, Entry.definition?, Origin.isTopLevel, Function.comp_def, List.filter_map]
  | rule r =>
    simp [declared, definitions, entries, Entry.definition?, Origin.isTopLevel,
      Function.comp_def, List.filterMap_map]
  | query q => rfl

theorem concluded_of_rule {i : Item} {d : Definition} (hd : d ∈ i.definitions)
    (horigin : d.origin = .rule) : d.name ∈ i.concluded := by
  obtain ⟨e, he, heq⟩ := List.mem_filterMap.mp hd
  cases i with
  | labels l =>
    obtain ⟨k, _, rfl⟩ := List.mem_map.mp he
    unfold labelEntry at heq
    split_ifs at heq
    · cases heq
    · cases heq
      cases horigin
  | rule r =>
    obtain ⟨c, hc, rfl⟩ := List.mem_map.mp he
    cases heq
    exact List.mem_map_of_mem hc
  | query q =>
    cases List.mem_singleton.mp he
    cases heq
    cases horigin

end Item

namespace Script

variable {v : Vocabulary} {s : Script} {name : String}

def definitions (s : Script) : List Definition := s.items.flatMap Item.definitions

theorem defined_of_check (h : (s.check v).isOk) {i : Item} (hi : i ∈ s.items) :
    ∀ e ∈ entries i, ∃ d, e = .definition d := by
  intro e he
  obtain ⟨d, hd, _⟩ := (sound_of_check h).unknown i hi e he
  exact ⟨d, hd⟩

theorem entries_eq_definitions (h : (s.check v).isOk) :
    s.items.flatMap entries = s.definitions.map .definition := by
  rw [definitions, List.map_flatMap]
  exact List.flatMap_congr fun i hi => (map_definition? (defined_of_check h hi)).symm

theorem clash_of_first {pre post : List Definition} {d p : Definition} (h : (s.check v).isOk)
    (hs : s.definitions = pre ++ d :: post) (hp : findDefinition? pre d.name = some p) :
    clash? p d = none := by
  have hfree := (freeOf_errors h).left.left
  have hentries := entries_eq_definitions h
  rw [hs, List.map_append, List.map_cons] at hentries
  have hall : FreeOf Finding.IsError (defineAll v [] (s.items.flatMap entries)).2 := hfree
  rw [hentries] at hall
  refine Check.clash_of_first hall ?_
  rw [List.filterMap_map, List.nil_append]
  simpa [Entry.definition?, Function.comp_def] using hp

def declares (name : String) (d : Definition) : Bool := d.name = name && d.origin.isTopLevel

theorem count_declared (h : (s.check v).isOk) (name : String) :
    (s.items.flatMap Item.declared).count name = s.definitions.countP (declares name) := by
  have hdeclared : s.items.flatMap Item.declared =
      (s.definitions.filter (·.origin.isTopLevel)).map Definition.name := by
    rw [definitions, List.filter_flatMap, List.map_flatMap]
    exact List.flatMap_congr fun i hi => Item.declared_eq (defined_of_check h hi)
  rw [hdeclared, List.count, List.countP_map, List.countP_filter]
  rfl

/-- The first definition of a name that is declared twice is a rule's. -/
theorem first_is_rule (h : (s.check v).isOk) (htwice : 2 ≤ s.definitions.countP (declares name)) :
    ∃ p, findDefinition? s.definitions name = some p ∧ p.origin = .rule := by
  obtain ⟨d, hd, hname⟩ := List.countP_pos_iff.mp (Nat.lt_of_lt_of_le Nat.two_pos htwice)
  have hsome : (findDefinition? s.definitions name).isSome :=
    List.find?_isSome.mpr ⟨d, hd, (Bool.and_eq_true_iff.mp hname).1⟩
  obtain ⟨p, hp⟩ := Option.isSome_iff_exists.mp hsome
  refine ⟨p, hp, ?_⟩
  obtain ⟨hpname, pre, post, hs, hpre⟩ := List.find?_eq_some_iff_append.mp hp
  by_contra horigin
  -- a label or a query comes first, and the second one is compared with it
  have hnone : pre.countP (declares name) = 0 := by
    refine List.countP_eq_zero.mpr fun e he hbad => ?_
    have hother := hpre e he
    rw [(Bool.and_eq_true_iff.mp hbad).1] at hother
    cases hother
  have hfirst := List.countP_cons (p := declares name) (a := p) (l := post)
  rw [hs, List.countP_append, hnone] at htwice
  have hlater : 0 < post.countP (declares name) := by split_ifs at hfirst <;> omega
  obtain ⟨e, he, hdeclares⟩ := List.countP_pos_iff.mp hlater
  obtain ⟨bs, cs, rfl⟩ := List.append_of_mem he
  obtain ⟨hename, htop⟩ := Bool.and_eq_true_iff.mp hdeclares
  have hsplit : s.definitions = (pre ++ p :: bs) ++ e :: cs := by
    rw [hs, List.append_assoc, List.cons_append]
  have hfind : findDefinition? (pre ++ p :: bs) e.name = some p := by
    rw [of_decide_eq_true hename]
    exact List.find?_eq_some_iff_append.mpr ⟨hpname, pre, bs, rfl, hpre⟩
  have hclash := clash_of_first h hsplit hfind
  have hp' : p.origin.isTopLevel := decide_eq_true horigin
  simp [clash?, htop, hp'] at hclash

/-- A name that queries and labels declare more than once is the name of labels only, and a rule
before them all has it among its consequences. -/
theorem declared_names_unique (h : (s.check v).isOk) (name : String) :
    (s.items.flatMap Item.declared).count name ≤ 1 ∨ (∀ q, .query q ∈ s.items → q.name ≠ name) ∧
      ∃ before i after, s.items = before ++ i :: after ∧ name ∈ i.concluded ∧
      ∀ j ∈ before, name ∉ j.declared := by
  refine or_iff_not_imp_left.mpr fun hmany => ?_
  rw [count_declared h] at hmany
  obtain ⟨p, hp, hrule⟩ := first_is_rule h (show 2 ≤ s.definitions.countP (declares name) by omega)
  have hpname : p.name = name := by simpa using List.find?_some hp
  constructor
  · intro q hq hname
    have hmem : Entry.definition p ∈ s.items.flatMap entries := by
      rw [entries_eq_definitions h]
      exact List.mem_map_of_mem (List.mem_of_find?_eq_some hp)
    have hquery : Entry.definition ⟨q.name, q.headVariables.length, .query,
        q.nameSpan⟩ ∈ s.items.flatMap entries :=
      List.mem_flatMap.mpr ⟨_, hq, List.mem_singleton_self _⟩
    have hne : Entry.definition p ≠ .definition ⟨q.name, q.headVariables.length,
        .query, q.nameSpan⟩ := by
      intro heq
      cases heq
      cases hrule
    exact ((sound_of_check h).apart.forall hmem hquery hne p _ rfl rfl (hpname.trans hname.symm)).2
      rfl
  · rw [definitions, findDefinition?, List.find?_flatMap] at hp
    obtain ⟨before, i, after, hitems, hi, hbefore⟩ := List.findSome?_eq_some_iff.mp hp
    refine ⟨before, i, after, hitems,
      hpname ▸ Item.concluded_of_rule (List.mem_of_find?_eq_some hi) hrule, ?_⟩
    intro j hj hdeclared
    have hmem : j ∈ s.items := by
      rw [hitems]
      exact List.mem_append_left _ hj
    rw [Item.declared_eq (defined_of_check h hmem)] at hdeclared
    obtain ⟨d, hd, hname⟩ := List.mem_map.mp hdeclared
    simpa [hname] using List.find?_eq_none.mp (hbefore j hj) d (List.mem_filter.mp hd).1

def packSource : String :=
  "wolf(a).\nnode labels: wolf, hare.\nhare(X) -> wolf(X).\nquery calm: not hare(_).\n" ++
    "edge labels: wolf.\n"

theorem declared_names_unique_pack :
    ∃ s, parse packSource = .ok s ∧ (s.check Compiler.standardVocabulary).isOk ∧
      s.items.flatMap Item.declared = ["wolf", "hare", "calm", "wolf"] ∧
      ∀ name, (s.items.flatMap Item.declared).count name ≤ 1 ∨
      (∀ q, .query q ∈ s.items → q.name ≠ name) ∧ ∃ before i after, s.items = before ++ i :: after ∧
      name ∈ i.concluded ∧ ∀ j ∈ before, name ∉ j.declared := by
  obtain ⟨s, hparse, hs⟩ := exists_ok_of_any (r := parse packSource) (P := fun s =>
    (s.check Compiler.standardVocabulary).isOk && s.items.flatMap Item.declared =
    ["wolf", "hare", "calm", "wolf"])
    (by decide +kernel)
  obtain ⟨hok, hdeclared⟩ := Bool.and_eq_true_iff.mp hs
  exact ⟨s, hparse, hok, of_decide_eq_true hdeclared, declared_names_unique hok⟩

/-- Two labels with the name of a rule before them pass the check. -/
theorem label_declared_twice :
    (parse "wolf(a).\nnode labels: wolf.\nedge labels: wolf.").toOption.any fun s =>
    (s.check Compiler.standardVocabulary).isOk &&
      decide ¬ (s.items.flatMap Item.declared).Nodup := by
  decide +kernel

end Script

end GraphRules
