import GraphRules.Proofs.DeclaredNames
import GraphRules.Proofs.FiniteSearch
import GraphRules.Proofs.ForeignAnswers
import GraphRules.Proofs.GraphEdits

/-! The answers to the predicate of a label. Where nothing else defines the predicate, it is asked
with one clause, which goes through the elements of its kind and looks up the attribute of each. -/
namespace GraphRules

open Check Lowering Reference Search

namespace Check

def Entry.Defines (name : String) (e : Entry) : Prop := ∃ d, e = .definition d ∧ d.name = name

theorem Entry.defines_definition {name : String} {d : Definition} :
    (Entry.definition d).Defines name ↔ d.name = name :=
  ⟨fun ⟨_, hd, hname⟩ => by cases hd; exact hname, fun hname => ⟨d, rfl, hname⟩⟩

end Check

theorem Script.once_of_check {v : Vocabulary} {s : Script} (h : (s.check v).isOk) {name : String}
    (hrules : ∀ r, .rule r ∈ s.items → ∀ k ∈ r.consequence, k.name ≠ name) :
    (s.items.flatMap entries).Pairwise fun e e' => e.Defines name → ¬ e'.Defines name := by
  have hnone : ∀ p ∈ s.definitions, p.name = name → p.origin ≠ .rule := by
    intro p hp hname horigin
    obtain ⟨i, hi, hp⟩ := List.mem_flatMap.mp hp
    have hconcluded := Item.concluded_of_rule hp horigin
    cases i with
    | labels d => cases hconcluded
    | rule r =>
      obtain ⟨k, hk, hkname⟩ := List.mem_map.mp hconcluded
      exact hrules r hi k hk (hkname.trans hname)
    | query q => cases hconcluded
  rw [entries_eq_definitions h, List.pairwise_map]
  refine List.pairwise_iff_forall_sublist.mpr fun {d e} hsub hd he => ?_
  rw [Entry.defines_definition] at hd he
  have hdeclares : ∀ p ∈ s.definitions, p.name = name → declares name p := fun p hp hname =>
    Bool.and_eq_true_iff.mpr ⟨decide_eq_true hname, decide_eq_true (hnone p hp hname)⟩
  have htwice : 2 ≤ s.definitions.countP (declares name) := by
    have hle := hsub.countP_le (p := declares name)
    rwa [List.countP_cons_of_pos (hdeclares d (hsub.subset (by simp)) hd),
      List.countP_cons_of_pos (hdeclares e (hsub.subset (by simp)) he)] at hle
  obtain ⟨p, hp, hrule⟩ := first_is_rule h htwice
  exact hnone p (List.mem_of_find?_eq_some hp) (by simpa using List.find?_some hp) hrule

namespace Script.Checked

variable {v : Vocabulary} {s : Script} {program : Program}

/-- The clauses of a label that is the only definition of its name. -/
theorem filter_label (h : s.Checked v program) {d : LabelDecl} (hd : .labels d ∈ s.items)
    {l : Label} (hl : l ∈ d.labels)
    (honce : (s.items.flatMap entries).Pairwise fun e e' => e.Defines l.predicate →
      ¬ e'.Defines l.predicate) :
    program.clauses.filter (fun c => c.signature? = some ⟨l.predicate, 1⟩) =
      [labelClause d.kind l] := by
  have hentry : ∀ l' ∈ d.labels, ∀ name, (labelEntry l').Defines name ↔ l'.predicate = name := by
    intro l' hl' name
    rw [h.labelEntry_eq hd hl', Entry.defines_definition]
  obtain ⟨before, after, hitems⟩ := List.append_of_mem hd
  obtain ⟨earlier, later, hlabels⟩ := List.append_of_mem hl
  have hsplit : s.items.flatMap entries = (before.flatMap entries ++ earlier.map labelEntry) ++
      labelEntry l :: (later.map labelEntry ++ after.flatMap entries) := by
    simp [hitems, hlabels, entries]
  rw [hsplit, List.pairwise_append, List.pairwise_cons] at honce
  obtain ⟨_, ⟨hafter, _⟩, hbefore⟩ := honce
  have hself : (labelEntry l).Defines l.predicate := (hentry l hl _).mpr rfl
  have hearlier : ∀ e ∈ before.flatMap entries ++ earlier.map labelEntry,
      ¬ e.Defines l.predicate := fun e he hdef =>
    hbefore e he _ List.mem_cons_self hdef hself
  have hlater : ∀ e ∈ later.map labelEntry ++ after.flatMap entries,
      ¬ e.Defines l.predicate := fun e he =>
    hafter e he hself
  have hitem : ∀ is : List Item,
      (∀ i ∈ is, i ∈ s.items ∧ ∀ e ∈ entries i, ¬ e.Defines l.predicate) →
      (is.flatMap itemClauses).filter (fun c => c.signature? = some ⟨l.predicate, 1⟩) = [] := by
    intro is his
    refine List.filter_eq_nil_iff.mpr fun c hc hsig => ?_
    obtain ⟨i, hi, hc⟩ := List.mem_flatMap.mp hc
    rcases h.signature_cases (his i hi).1 hc (of_decide_eq_true hsig) with
      ⟨d', hd', hname⟩ | ⟨q, rfl, rfl⟩
    · exact (his i hi).2 _ hd' ⟨d', rfl, hname⟩
    · have hname : "query" = l.predicate :=
        congrArg Signature.name (Option.some.inj (of_decide_eq_true hsig))
      exact h.ne_query hd (h.label_mem_entries hd hl) hname.symm
  have hlabel : ∀ ls : List Label,
      (∀ l' ∈ ls, l' ∈ d.labels ∧ ¬ (labelEntry l').Defines l.predicate) →
      (ls.map (labelClause d.kind)).filter (fun c => c.signature? = some ⟨l.predicate, 1⟩) =
        [] := by
    intro ls hls
    refine List.filter_eq_nil_iff.mpr fun c hc hsig => ?_
    obtain ⟨l', hl', rfl⟩ := List.mem_map.mp hc
    have hname : l'.predicate = l.predicate :=
      congrArg Signature.name (Option.some.inj (of_decide_eq_true hsig))
    exact (hls l' hl').2 ((hentry l' (hls l' hl').1 _).mpr hname)
  have hown : (labelClause d.kind l).signature? = some ⟨l.predicate, 1⟩ := rfl
  rw [h.clauses, hitems, List.flatMap_append, List.flatMap_cons, List.filter_append,
    List.filter_append, itemClauses, hlabels, List.map_append, List.map_cons, List.filter_append,
    List.filter_cons, if_pos (decide_eq_true hown), hitem before,
    hitem after, hlabel earlier, hlabel later]
  · rfl
  · exact fun l' hl' =>
      ⟨by simp [hlabels, hl'], hlater _ (List.mem_append_left _ (List.mem_map_of_mem hl'))⟩
  · exact fun l' hl' =>
      ⟨by simp [hlabels, hl'], hearlier _ (List.mem_append_right _ (List.mem_map_of_mem hl'))⟩
  · exact fun i hi => ⟨by simp [hitems, hi], fun e he =>
      hlater e (List.mem_append_right _ (List.mem_flatMap.mpr ⟨i, hi, he⟩))⟩
  · exact fun i hi => ⟨by simp [hitems, hi], fun e he =>
      hearlier e (List.mem_append_left _ (List.mem_flatMap.mpr ⟨i, hi, he⟩))⟩

end Script.Checked

namespace LabelKind

def ids (g : Graph) : LabelKind → List String
  | .node => g.nodes.map Node.id
  | .edge => g.edges.map Edge.id

theorem filter_shapeFacts (kind : LabelKind) (g : Graph) :
    (Standard.shapeFacts g).filter (fun c => c.signature? = some ⟨kind.predicate, 1⟩) =
      (kind.ids g).map fun x => Standard.fact kind.predicate [x] := by
  cases kind with
  | node =>
    simp [Standard.shapeFacts, Standard.fact, Clause.signature?, Term.signature?, predicate,
      ids, List.filter_flatMap, List.filter_map, Function.comp_def]
  | edge =>
    simp [Standard.shapeFacts, Standard.fact, Clause.signature?, Term.signature?, predicate,
      ids, List.filter_flatMap, List.filter_map, Function.comp_def]
    exact List.map_eq_flatMap.symm

end LabelKind

theorem Script.Compiled.clausesOf_kind {s : Script} {program : Program} (h : s.Compiled program)
    (kind : LabelKind) (g : Graph) (limits : Limits) :
    (program.engine g limits).clausesOf ⟨kind.predicate, 1⟩ =
      (kind.ids g).map fun x => Standard.fact kind.predicate [x] := by
  rw [Program.clausesOf_engine, kind.filter_shapeFacts, List.append_right_eq_self,
    List.filter_eq_nil_iff]
  intro c hc hsig
  have hknown :=
    Compiler.containsName_standard 0 kind.predicate (by cases kind <;> simp [LabelKind.predicate])
  obtain ⟨q, _, rfl⟩ := h.exists_query_of_known hc (of_decide_eq_true hsig) hknown
  have hname : "query" = kind.predicate :=
    congrArg Signature.name (Option.some.inj (of_decide_eq_true hsig))
  cases kind <;> simp [LabelKind.predicate] at hname

namespace Standard

theorem not_isForeign_kind (kind : LabelKind) (g : Graph) :
    (library g).isForeign ⟨kind.predicate, 1⟩ = false := by
  rw [Bool.eq_false_iff, ne_eq, isForeign_iff]
  cases kind <;> decide

theorem isForeign_attribute (g : Graph) : (library g).isForeign ⟨"attribute", 3⟩ := by
  rw [isForeign_iff]
  decide

theorem call_attribute (g : Graph) (x name value : String) :
    (library g).call ⟨"attribute", 3⟩ [.atom x, .atom name, .atom value] =
      if (g.find? x).bind (·.attribute? name) = some (.text value) then some [] else none := by
  have hpredicate : (library g).predicate? ⟨"attribute", 3⟩ = some .ofAttributes := rfl
  have hgraph : (library g).graph = g := rfl
  rw [Library.call_eq, hpredicate, hgraph, Option.bind_some]
  simp only [Predicate.ofAttributes, Predicate.attributeAnswer, Predicate.subject,
    Predicate.attributeName]
  cases g.find? x with
  | none => rfl
  | some e =>
    cases hstored : e.attribute? name with
    | none => simp only [bind, Except.bind, Option.bind_some, hstored]; rfl
    | some stored =>
      simp only [bind, Except.bind, Option.bind_some, hstored, Predicate.matchAttribute,
        Predicate.ofAnswering, Predicate.equations?_holdsIf, decide_eq_true_eq,
        Attribute.text?_eq_some_iff, Option.some.injEq]

end Standard

variable {b : Bindings}

theorem Bindings.unify?_one (h : b.Tidy) (p : String) {s t : Term} (hs : s.isFlat) (ht : t.isFlat)
    {v : Var} (hv : b.walk s = .var v) (hne : b.walk t ≠ .var v) :
    b.unify? (.compound p [s]) (.compound p [t]) = some (b.bind v (b.walk t)) := by
  have hall : ∀ {u : Term}, u.isFlat → [u].all Term.isFlat := fun hu => by simpa using hu
  have happly := Bindings.unify?_apply h p p (hall hs) (hall ht)
  rw [if_pos rfl] at happly
  refine happly.trans ?_
  simp [unifyAll, matchFlat, hv, Ne.symm hne]

theorem Reference.solve_call {ε : Type} {κ : Counting ε} {e : Engine} {k n : Nat} {t : Term}
    {d : Nat} {rest : List Goal} {s : Signature} (hwalk : b.walk t = t) (htask : task t = .call s)
    (hforeign : e.library.isForeign s = false) (hd : d < e.limits.depth) :
    solve κ e (k + 1) n b (⟨t, d⟩ :: rest) =
      .step (attempts κ (solve κ e k) b t d rest (e.clausesOf s) n) := by
  have hcalled : called κ e (solve κ e k) n b t s d rest =
      attempts κ (solve κ e k) b t d rest (e.clausesOf s) n := by
    rw [called, if_neg (by simp [hforeign]), if_neg (Nat.not_le.mpr hd)]
  rw [solve, work, hwalk, htask]
  exact congrArg Reference.Trace.step hcalled

namespace LabelAnswers

variable {program : Program} {g : Graph} {limits : Limits}

def inner : Var := ⟨"X", 1⟩

def asked : Bindings := Bindings.empty.bind ⟨"X", 0⟩ (.var inner)

def found (id : String) : Bindings := asked.bind inner (.atom id)

theorem find?_empty (v : Var) : Bindings.empty.find? v = none := by
  simp [Bindings.find?_eq_lookup, Bindings.empty]

theorem find?_asked (v : Var) :
    asked.find? v = if v = ⟨"X", 0⟩ then some (.var inner) else none := by
  rw [asked, Bindings.find?_bind (find?_empty _), find?_empty]

theorem find?_inner : asked.find? inner = none := by simp [find?_asked, inner]

theorem tidy_asked : asked.Tidy :=
  Bindings.tidy_empty.bind (find?_empty _) rfl (by simp [inner]) fun w _ => find?_empty w

theorem tidy_found (id : String) : (found id).Tidy :=
  tidy_asked.bind find?_inner rfl (by simp) (by simp)

theorem walk_found_inner (id : String) : (found id).walk (.var inner) = .atom id := by
  have hfind : (found id).find? inner = some (.atom id) := by
    rw [found, Bindings.find?_bind find?_inner, if_pos rfl]
  rw [Bindings.walk_of_find? (tidy_found id).forward hfind, Bindings.walk_nonvar _ (by simp)]

theorem walk_found (id : String) : (found id).walk (.named "X") = .atom id := by
  have hfind : (found id).find? ⟨"X", 0⟩ = some (.var inner) := by
    rw [found, Bindings.find?_bind find?_inner, find?_asked]
    rfl
  rw [Term.named, Bindings.walk_of_find? (tidy_found id).forward hfind, walk_found_inner]

theorem unify_asked (p : String) :
    Bindings.empty.unify? (.compound p [.named "X"]) (.compound p [.var inner]) = some asked := by
  have hwalk : ∀ v, Bindings.empty.walk (.var v) = .var v :=
    fun v => Bindings.walk_unbound _ (find?_empty v)
  rw [Term.named,
    Bindings.unify?_one Bindings.tidy_empty p rfl rfl (hwalk ⟨"X", 0⟩) (by simp [hwalk, inner]),
    hwalk]
  rfl

theorem unify_found (p id : String) :
    asked.unify? (.compound p [.var inner]) (.compound p [.atom id]) = some (found id) := by
  have hatom : asked.walk (.atom id) = .atom id := Bindings.walk_nonvar _ (by simp)
  rw [Bindings.unify?_one tidy_asked p rfl rfl (Bindings.walk_unbound _ find?_inner)
    (by simp [hatom]), hatom]
  rfl

def holds (g : Graph) (value id : String) : Bool :=
  (g.find? id).bind (·.attribute? "label") = some (.text value)

def attributeGoal (value : String) : Goal :=
  ⟨.compound "attribute" [.var inner, .atom "label", .atom value], 1⟩

theorem solve_attribute (value id : String) (k n : Nat) :
    solve .wrapped (program.engine g limits) (k + 2) n (found id) [attributeGoal value] =
      .step (if holds g value id then .answer n (found id) (.done n) else .done n) := by
  have hwalk : (found id).walk (attributeGoal value).term = (attributeGoal value).term :=
    Bindings.walk_nonvar _ (by simp [attributeGoal])
  have hargs : (attributeGoal value).term.args.map (found id).resolve =
      [.atom id, .atom "label", .atom value] := by
    have hinner : (found id).resolve (.var inner) = .atom id :=
      (Bindings.resolve_of_flat (tidy_found id) rfl).trans (walk_found_inner id)
    have hatom : ∀ a, (found id).resolve (.atom a) = .atom a := fun a =>
      (Bindings.resolve_of_flat (tidy_found id) rfl).trans (Bindings.walk_nonvar _ (by simp))
    simp [attributeGoal, Term.args, hinner, hatom]
  have hforeign : foreign? (program.engine g limits) (found id)
      (attributeGoal value).term ⟨"attribute", 3⟩ =
      if holds g value id then some (found id) else none := by
    have hcall := Standard.call_attribute g id "label" value
    rw [foreign?, hargs]
    show ((Standard.library g).call _ _).bind _ = _
    rw [hcall]
    by_cases h : (g.find? id).bind (·.attribute? "label") = some (.text value) <;> simp [h, holds]
  have htask : task (attributeGoal value).term = .call ⟨"attribute", 3⟩ := rfl
  have hlibrary : (program.engine g limits).library.isForeign ⟨"attribute", 3⟩ :=
    Standard.isForeign_attribute g
  rw [solve, work, hwalk, htask]
  dsimp only
  rw [called, if_pos hlibrary, hforeign]
  cases holds g value id <;> rfl

theorem attempts_facts (program : Program) (g : Graph) (limits : Limits)
    (kind : LabelKind) (value : String) (ids : List String) (k n : Nat) :
    ∃ t : Reference.Trace Nat,
      attempts .wrapped (solve .wrapped (program.engine g limits) (k + 2)) asked
        (.compound kind.predicate [.var inner]) 1
        [attributeGoal value] (ids.map fun x => Standard.fact kind.predicate [x]) n = t ∧
      t.ends ∧ t.isCut = false ∧
        t.answers.map Prod.snd = (ids.filter (holds g value)).map found := by
  induction ids generalizing n with
  | nil => exact ⟨_, rfl, rfl, rfl, rfl⟩
  | cons id ids ih =>
    obtain ⟨t, ht, hends, hcut, hanswers⟩ := ih (n + 1)
    have hattempt : attempt .wrapped (solve .wrapped (program.engine g limits) (k + 2)) n asked
        (.compound kind.predicate [.var inner]) 1 [attributeGoal value]
          (Standard.fact kind.predicate [id]) =
        .step (if holds g value id then .answer (n + 1) (found id) (.done (n + 1))
        else .done (n + 1)) := by
      have hhead : ∀ m, ((Standard.fact kind.predicate [id]).rename m).head =
          .compound kind.predicate [.atom id] :=
        fun _ => rfl
      rw [attempt_wrapped, hhead, unify_found]
      exact solve_attribute value id k (n + 1)
    rw [List.map_cons, attempts, hattempt]
    by_cases h : holds g value id
    · refine ⟨.step (.answer (n + 1) (found id) t), ?_, hends, hcut, ?_⟩
      · rw [if_pos h, ← ht]
        rfl
      · rw [List.filter_cons_of_pos h, List.map_cons, ← hanswers]
        rfl
    · refine ⟨.step t, ?_, hends, hcut, ?_⟩
      · rw [if_neg h, ← ht]
        rfl
      · rw [List.filter_cons_of_neg h, ← hanswers]
        rfl

/-- The trace of the call of a label: its one clause is tried with every element of its kind. -/
theorem solveGoal_label {kind : LabelKind} {l : Label} (hdepth : 2 ≤ limits.depth)
    (hnot : l.predicate ≠ "not")
    (hforeign : (Standard.library g).isForeign ⟨l.predicate, 1⟩ = false)
    (hlabel : (program.engine g limits).clausesOf ⟨l.predicate, 1⟩ = [labelClause kind l])
    (hkind : (program.engine g limits).clausesOf ⟨kind.predicate, 1⟩ =
      (kind.ids g).map fun x => Standard.fact kind.predicate [x]) :
    ∃ k, ∃ t : Reference.Trace Nat,
      solveGoal .wrapped (program.engine g limits) k (.compound l.predicate [.named "X"]) = t ∧
      t.ends ∧ t.isCut = false ∧
      t.answers.map Prod.snd = ((kind.ids g).filter (holds g l.value)).map found := by
  obtain ⟨t, ht, hends, hcut, hanswers⟩ :=
    attempts_facts program g limits kind l.value (kind.ids g) 0 1
  refine ⟨4, .step (.step t), ?_, hends, hcut, hanswers⟩
  have hcompound : ∀ (b : Bindings) (p : String) (a : Term),
      b.walk (.compound p [a]) = .compound p [a] := fun b p a =>
    Bindings.walk_nonvar b (by simp)
  have hbody : solve .wrapped (program.engine g limits) 3 1 asked
      [⟨.compound kind.predicate [.var inner], 1⟩, attributeGoal l.value] = .step t := by
    rw [solve_call (hcompound _ _ _) (by cases kind <;> rfl)
      (Standard.not_isForeign_kind kind g) hdepth, hkind]
    exact congrArg Reference.Trace.step ht
  have hclause : attempt .wrapped (solve .wrapped (program.engine g limits) 3) 0 .empty
      (.compound l.predicate [.named "X"]) 0
      [] (labelClause kind l) = .step t := by
    have hhead : ((labelClause kind l).rename (scopeOf (0 + 1))).head =
        .compound l.predicate [.var inner] := rfl
    rw [attempt_wrapped, hhead, unify_asked]
    exact hbody
  have htask : task (.compound l.predicate [.named "X"]) = .call ⟨l.predicate, 1⟩ := by
    rw [task_one, if_neg hnot]
  rw [solveGoal,
    solve_call (hcompound _ _ _) htask hforeign (Nat.lt_of_lt_of_le Nat.zero_lt_two hdepth),
    hlabel, attempts, hclause]
  exact congrArg Reference.Trace.step (Reference.Trace.andThen_done _)

theorem ofVariables_found (id : String) :
    Solution.ofVariables [⟨"X", 0⟩] (found id) = ⟨[("X", .atom id)]⟩ := by
  have hresolve : (found id).resolve (.var ⟨"X", 0⟩) = .atom id :=
    (Bindings.resolve_of_flat (tidy_found id) rfl).trans (walk_found id)
  rw [Solution.ofVariables, List.foldl_cons, List.foldl_nil, hresolve]
  rfl

end LabelAnswers

def Graph.labelled (g : Graph) (value : String) : LabelKind → List String
  | .node => (g.nodes.filter fun n => n.attributes.lookup "label" = some (.text value)).map Node.id
  | .edge => (g.edges.filter fun e => e.attributes.lookup "label" = some (.text value)).map Edge.id

theorem Graph.Indexed.labelled_eq {g : Graph} (h : g.Indexed) (value : String) (kind : LabelKind) :
    (kind.ids g).filter (LabelAnswers.holds g value) = g.labelled value kind := by
  cases kind with
  | node =>
    rw [LabelKind.ids, labelled, List.filter_map]
    refine congrArg _ (List.filter_congr fun n hn => ?_)
    rw [Function.comp_apply, LabelAnswers.holds, h.find?_node hn]
    rfl
  | edge =>
    rw [LabelKind.ids, labelled, List.filter_map]
    refine congrArg _ (List.filter_congr fun e he => ?_)
    rw [Function.comp_apply, LabelAnswers.holds, h.find?_edge he]
    rfl

/-- The predicate of a label holds of the elements with the label and of no others. If no rule
defines it too, every element is found once, in the order in which they were put into the graph. -/
theorem Script.label_answers {threshold : Nat} {source : String} {s : Script} {program : Program}
    (hparse : Script.parse source = .ok s)
    (hcompile : (Compiler.standard threshold).compile source = .ok program) {d : LabelDecl}
    (hd : .labels d ∈ s.items) {l : Label} (hl : l ∈ d.labels)
    (hrules : ∀ r, .rule r ∈ s.items → ∀ k ∈ r.consequence, k.name ≠ l.predicate) {g : Graph}
    (hg : g.Built) {limits : Limits} (hdepth : 2 ≤ limits.depth) (hall : limits.solutions? = none) :
    ∃ m, ∀ budget ≥ m, ∃ s', (Solutions.ofGoal (.compound l.predicate [.named "X"])).Completes
      (program.engine g limits) budget
        ((g.labelled l.value d.kind).map fun id => ⟨[("X", .atom id)]⟩) s' ∧
      s'.depthExceeded = false := by
  have hcompiled := compiled_of_compile hparse hcompile
  have hentry := hcompiled.label_mem_entries hd hl
  have honce := once_of_check (Compiler.compile_eq_ok hparse hcompile).1 hrules
  have hlabel : (program.engine g limits).clausesOf ⟨l.predicate, 1⟩ = [labelClause d.kind l] := by
    rw [Program.clausesOf_engine, hcompiled.filter_label hd hl honce, List.append_left_eq_self,
      List.filter_eq_nil_iff]
    exact fun c hc hsig => hcompiled.shapeFact_signature_ne hd hentry hc 1 (of_decide_eq_true hsig)
  obtain ⟨k, t, ht, hends, hcut, hanswers⟩ := LabelAnswers.solveGoal_label hdepth
    (hcompiled.name_ne hd hentry (by simp)) (hcompiled.isForeign_eq_false hd hentry g 1) hlabel
    (hcompiled.clausesOf_kind d.kind g limits)
  have hsolutions : solutions .wrapped (program.engine g limits) k
      (.compound l.predicate [.named "X"]) =
      (g.labelled l.value d.kind).map fun id => ⟨[("X", .atom id)]⟩ := by
    have hvars : (Solutions.ofGoal (.compound l.predicate [.named "X"])).vars = [⟨"X", 0⟩] := rfl
    have hanswer :=
      List.map_map (g := Solution.ofVariables [⟨"X", 0⟩]) (f := Prod.snd) (l := t.answers)
    rw [hanswers, hg.indexed.labelled_eq, List.map_map] at hanswer
    rw [solutions, ht, hvars]
    refine hanswer.symm.trans (List.map_congr_left fun id _ => ?_)
    exact LabelAnswers.ofVariables_found id
  obtain ⟨m, hm⟩ :=
    Engine.exists_completes_solutions (e := program.engine g limits) hall (ht ▸ hends)
  refine ⟨m, fun budget hb => ?_⟩
  obtain ⟨s', hs', -, hexceeded⟩ := hm budget hb
  exact ⟨s', hsolutions ▸ hs', by rw [hexceeded, ht, hcut]⟩

def Item.labels? : Item → Option LabelDecl
  | .labels d => some d
  | _ => none

def Item.rule? : Item → Option Rule
  | .labels _ => none
  | .rule r => some r
  | .query _ => none

theorem Item.exists_labels_of_any {i : Item} {P : LabelDecl → Bool} (h : i.labels?.any P) :
    ∃ d, i = .labels d ∧ P d := by
  cases i with
  | labels d => exact ⟨d, rfl, h⟩
  | rule r => cases h
  | query q => cases h

def flockSource : String :=
  "node labels: wolf, \"old sheep\" as sheep.\nsheep(X), edge(X, Y) -> near(Y).\n"

/-- Labels of all kinds of value; two nodes and an edge have the one that is asked for. -/
def flockOperations : List Graph.Operation :=
  [.addNode ⟨"old sheep", []⟩, .addNode ⟨"b", []⟩, .setAttribute "b" "label" (.text "wolf"),
    .setAttribute "b" "label" (.text "old sheep"), .addEdge ⟨"e", "b", "b", []⟩,
    .setAttribute "e" "label" (.text "old sheep"), .addNode ⟨"c", []⟩,
    .setAttribute "c" "label" (.bool true),
    .addNode ⟨"a", []⟩, .setAttribute "a" "label" (.text "old sheep"), .addNode ⟨"graph", []⟩]

theorem Script.label_answers_flock : ∃ s program d l, Script.parse flockSource = .ok s ∧
    (Compiler.standard 16).compile flockSource = .ok program ∧ .labels d ∈ s.items ∧ l ∈ d.labels ∧
    (d.kind = .node ∧ l.predicate = "sheep" ∧ l.value = "old sheep") ∧
    (∀ r, .rule r ∈ s.items → ∀ k ∈ r.consequence, k.name ≠ l.predicate) ∧
    (Graph.run {} flockOperations).Built ∧
    ∃ m, ∀ budget ≥ m, ∃ s', (Solutions.ofGoal (.compound "sheep" [.named "X"])).Completes
      (program.engine (Graph.run {} flockOperations) { depth := 2 }) budget
      [⟨[("X", .atom "b")]⟩, ⟨[("X", .atom "a")]⟩] s' ∧ s'.depthExceeded = false := by
  obtain ⟨s, program, hparse, hcompile, hscript⟩ := Compiler.exists_ok_of_check 16 flockSource
    (P := fun s => (s.items.any fun i => i.labels?.any fun d =>
      d.kind = .node && d.labels.any fun l =>
      l.predicate = "sheep" && l.value = "old sheep") && s.items.all fun i => i.rule?.all fun r =>
        r.consequence.all fun k => k.name ≠ "sheep") (by decide +kernel)
  obtain ⟨hlabel, hrules⟩ := Bool.and_eq_true_iff.mp hscript
  obtain ⟨i, hi, hd⟩ := List.any_eq_true.mp hlabel
  obtain ⟨d, rfl, hd⟩ := Item.exists_labels_of_any hd
  obtain ⟨hkind, hl⟩ := Bool.and_eq_true_iff.mp hd
  obtain ⟨l, hl, hshape⟩ := List.any_eq_true.mp hl
  simp only [Bool.and_eq_true, decide_eq_true_eq] at hshape hkind
  have hrules : ∀ r, .rule r ∈ s.items → ∀ k ∈ r.consequence, k.name ≠ l.predicate := by
    intro r hr k hk
    rw [hshape.1]
    simpa using List.all_eq_true.mp (List.all_eq_true.mp hrules _ hr) k hk
  have hbuilt : (Graph.run {} flockOperations).Built := ⟨_, _, _, _, rfl⟩
  have hlabelled : (Graph.run {} flockOperations).labelled "old sheep" .node = ["b", "a"] := by
    decide
  have hdepth : 2 ≤ ({ depth := 2 } : Limits).depth := Nat.le_refl 2
  have hanswers := label_answers hparse hcompile hi hl hrules hbuilt hdepth rfl
  rw [hshape.1, hshape.2, hkind, hlabelled] at hanswers
  exact ⟨s, program, d, l, hparse, hcompile, hi, hl, ⟨hkind, hshape⟩, hrules, hbuilt, hanswers⟩

end GraphRules
