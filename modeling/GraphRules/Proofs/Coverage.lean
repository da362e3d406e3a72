import GraphRules.Proofs.Concatenation
import GraphRules.Proofs.GrammarItems

/-! Every text is a script by the grammar. The rule of scripts takes any text to its end, and what
is parsed is what is built from its tree. Where that is not a script, each diagnostic has its node:
a malformed statement or a whole number that is too large. Nothing else can be wrong with a tree,
and the same holds of goals. -/
namespace GraphRules.Grammar

open Script

def Oversized (q : Pair) : Prop := q.rule = .integer ∧ fitsWord (intValue q.text) = false

def Shown : Statement → Pair → Prop
  | .item i, q => q.item? = some (.ok i)
  | .oversized text span, q => q.item? = some (.error (.oversized text span)) ∧
      ∃ p, Under p [q] ∧ Oversized p ∧ p.text = text ∧ p.span = span
  | .malformed text span, q => q.rule = .catchAll ∧ q.text = text ∧ q.span = span

def outcome : Statement → Except Diagnostic Item
  | .item i => .ok i
  | .oversized text span => .error (Fault.diagnostic (.oversized text) span)
  | .malformed text span => .error (Fault.diagnostic (.malformed text) span)

variable {s : Statement}

theorem Shown.statement? {q : Pair} (h : Shown s q) : q.statement? = some (outcome s) := by
  have hitem : ∀ r, q.item? = some r → q.statement? = some (r.mapError Defect.diagnostic) := by
    intro r hr
    unfold Pair.statement?
    split
    next hrule =>
      simp [Pair.item?, hrule] at hr
    next => rw [hr]; rfl
  cases s with
  | item i => exact hitem _ h
  | oversized text span => exact hitem _ h.1
  | malformed text span =>
    obtain ⟨hrule, rfl, rfl⟩ := h
    simp [Pair.statement?, hrule, outcome]

section Statements

theorem Matches.choice_last {m : Mode} {a b c d : Expr} {p : Spot} {o : Option (Spot × List Pair)}
    (h : Matches m (.choice (.choice a (.choice b c)) d) p o) :
    Matches m (.choice a (.choice b (.choice c d))) p o := by
  cases h with
  | choice_left h => cases h with
    | choice_left ha => exact .choice_left ha
    | choice_right ha h => cases h with
      | choice_left hb => exact .choice_right ha (.choice_left hb)
      | choice_right hb hc => exact .choice_right ha (.choice_right hb (.choice_left hc))
  | choice_right h hd => cases h with
    | choice_right ha h => cases h with
      | choice_right hb hc => exact .choice_right ha (.choice_right hb (.choice_right hc hd))

theorem matches_statement (c : Cursor) : ∃ o, Matches .free (.call .statement) c.spot o ∧
    Option.Rel (fun x y => y.1 = x.2.spot ∧ ∃ q, y.2 = [q] ∧ Shown x.1 q) (statement c) o := by
  have hcall : ∀ o, Matches .free (Rule.body .statement) c.spot o →
      Matches .free (.call .statement) c.spot o := by
    intro o ho
    have h := Matches.call (m := .free) (r := .statement) ho
    have hclose : Rule.close .statement .free c.spot = id := rfl
    rwa [hclose, Option.map_id] at h
  obtain ⟨o, ho, hrel⟩ :=
    follows_item (n := c.rest.length + 1) { c with oversized? := none } (Nat.lt_succ_self _)
  unfold statement
  cases hitem : item { c with oversized? := none } with
  | some x =>
    rw [hitem] at hrel
    obtain ⟨y, rfl, hspot, _, w, hover, hjust, q, hy, hq⟩ := rel_some_left hrel
    refine ⟨_, hcall _ (.choice_last (.choice_left ho)), ?_⟩
    change x.2.oversized? = w at hover
    cases w with
    | none =>
      simp only [hover]
      exact .some ⟨hspot, q, hy, hq⟩
    | some t =>
      simp only [hover]
      refine .some ⟨hspot, q, hy, hq, ?_⟩
      obtain ⟨p, hp, hrule, htext, hspan, hfits⟩ := hjust t rfl
      exact ⟨p, hy ▸ hp, ⟨hrule, hfits⟩, htext, hspan⟩
  | none =>
    rw [hitem] at hrel
    rw [rel_none_left hrel] at ho
    obtain ⟨o', ho', hrel'⟩ := (Takes.node (m := .free) (r := .catchAll) takes_catchAll rfl) c.spot
    refine ⟨o', hcall _ (.choice_last (.choice_right ho ho')), ?_⟩
    change Option.Rel _ (if c.rest.isEmpty then none else some (stretch c.rest)) _ at hrel'
    by_cases hrest : c.rest = []
    · have hmalformed : malformed c = none := by simp [malformed, spanned, taken, hrest]
      rw [hrest] at hrel'
      rw [rel_none_left hrel', hmalformed]
      exact .none
    · rw [malformed_eq hrest]
      simp only [List.isEmpty_iff, hrest, if_false] at hrel'
      obtain ⟨y, rfl, hspot, inner, hy⟩ := rel_some_left hrel'
      exact .some ⟨hspot, _, hy, rfl, rfl, rfl⟩

def AtEnd (c : Cursor) : Prop := (c.advance (blankLength c.rest)).rest = []

theorem atEnd_of_none {c : Cursor} (h : nextStatement c = none) : AtEnd c := by
  by_contra hne
  obtain ⟨s, c', hs⟩ := exists_statement hne
  rw [nextStatement_eq, hs] at h
  cases h

theorem matches_again (c : Cursor) :
    ∃ d ps, Matches .free (.again (.call .statement)) c.spot (some (d.spot, ps)) ∧
    AtEnd d ∧ List.Forall₂ Shown (statementsAt c) ps := by
  induction hn : c.rest.length using Nat.strongRecOn generalizing c with
  | ind n ih =>
    obtain ⟨o, ho, hrel⟩ := matches_statement (c.advance (blankLength c.rest))
    rw [← nextStatement_eq] at hrel
    cases hnext : nextStatement c with
    | none =>
      rw [hnext] at hrel
      rw [rel_none_left hrel] at ho
      refine ⟨c, [], .again_stop (matches_blanks c) ho, atEnd_of_none hnext, ?_⟩
      rw [statementsAt_of_none hnext]
      exact .nil
    | some x =>
      rw [hnext] at hrel
      obtain ⟨s, c'⟩ := x
      obtain ⟨⟨z, ys⟩, rfl, hspot, q, hys, hshown⟩ := rel_some_left hrel
      change z = c'.spot at hspot
      change ys = [q] at hys
      subst hspot hys
      have hlen := length_of_nextStatement hnext
      obtain ⟨d, ps, hmore, hend, hall⟩ := ih _ (by omega) c' rfl
      have hagain : Matches .free (.again (.call .statement)) c.spot
          (some (d.spot, [] ++ [q] ++ ps)) :=
        .again_more (matches_blanks c) ho hmore
      refine ⟨d, q :: ps, hagain, hend, ?_⟩
      rw [statementsAt_of_some hnext]
      exact .cons hshown hall

theorem matches_star (c : Cursor) : ∃ d ps,
    Matches .free (.star (.call .statement)) (c.advance (blankLength c.rest)).spot
      (some (d.spot, ps)) ∧
    AtEnd d ∧ List.Forall₂ Shown (statementsAt c) ps := by
  obtain ⟨o, ho, hrel⟩ := matches_statement (c.advance (blankLength c.rest))
  rw [← nextStatement_eq] at hrel
  cases hnext : nextStatement c with
  | none =>
    rw [hnext] at hrel
    rw [rel_none_left hrel] at ho
    have hend := atEnd_of_none hnext
    refine ⟨_, [], .star_stop ho, ?_, ?_⟩
    · change (c.advance (blankLength c.rest)).rest.drop _ = []
      rw [hend]
      rfl
    · rw [statementsAt_of_none hnext]
      exact .nil
  | some x =>
    rw [hnext] at hrel
    obtain ⟨s, c'⟩ := x
    obtain ⟨⟨z, ys⟩, rfl, hspot, q, hys, hshown⟩ := rel_some_left hrel
    change z = c'.spot at hspot
    change ys = [q] at hys
    subst hspot hys
    obtain ⟨d, ps, hmore, hend, hall⟩ := matches_again c'
    refine ⟨d, q :: ps, .star_more ho hmore, hend, ?_⟩
    rw [statementsAt_of_some hnext]
    exact .cons hshown hall

/-- The tree of a whole text: a node for each statement, and one for the end. -/
theorem matches_script (text : String) :
    ∃ stop tree qs ending, Matches .free (.call .script) ⟨text.toList, {}⟩ (some (stop, [tree])) ∧
      stop.rest = [] ∧ tree.inner = qs ++ [ending] ∧ ending.rule = .eoi ∧
      List.Forall₂ Shown (statements text) qs := by
  obtain ⟨d, ps, hstar, hend, hall⟩ := matches_star { rest := text.toList }
  let start : Cursor := { rest := text.toList }
  let last := d.advance (blankLength d.rest)
  let ending : Pair := .mk .eoi (last.spot.upTo last.spot) (.between last.place last.place) []
  have hstart : Matches .free .start start.spot (some (start.spot, [])) := .start_hit rfl
  have hstop : Matches .free (Rule.body .eoi) last.spot (some (last.spot, [])) := .stop_hit hend
  have hlast : Matches .free (.call .eoi) last.spot (some (last.spot, [ending])) :=
    Matches.call (m := .free) (r := .eoi) hstop
  have hbody : Matches .free (Rule.body .script) start.spot
      (some (last.spot, [] ++ [] ++ (ps ++ [] ++ [ending]))) :=
    .seq hstart (matches_blanks start) (.seq hstar (matches_blanks d) hlast)
  exact ⟨_, _, ps, ending, Matches.call (m := .free) (r := .script) hbody,
    hend, by simp [Pair.inner], rfl, hall⟩

variable {ss : List Statement} {qs : List Pair}

theorem exists_shown (h : List.Forall₂ Shown ss qs) :
    (∀ s ∈ ss, ∃ q ∈ qs, Shown s q) ∧ ∀ q ∈ qs, ∃ s ∈ ss, Shown s q := by
  induction h with
  | nil => simp
  | @cons s q ss qs hs _ ih =>
    refine ⟨fun t ht => ?_, fun p hp => ?_⟩
    · rcases List.mem_cons.mp ht with rfl | ht
      · exact ⟨q, List.mem_cons_self, hs⟩
      · obtain ⟨p, hp, ht⟩ := ih.1 t ht
        exact ⟨p, List.mem_cons_of_mem _ hp, ht⟩
    · rcases List.mem_cons.mp hp with rfl | hp
      · exact ⟨s, List.mem_cons_self, hs⟩
      · obtain ⟨t, ht, hp⟩ := ih.2 p hp
        exact ⟨t, List.mem_cons_of_mem _ ht, hp⟩

theorem filterMap_statement? (h : List.Forall₂ Shown ss qs) :
    qs.filterMap Pair.statement? = ss.map outcome := by
  induction h with
  | nil => rfl
  | cons hs _ ih => rw [List.filterMap_cons, hs.statement?, List.map_cons, ih]

theorem parse_eq_scriptOf {text : String} {tree ending : Pair} (htree : tree.inner = qs ++ [ending])
    (hending : ending.rule = .eoi) (h : List.Forall₂ Shown (statements text) qs) :
    Script.parse text = scriptOf [tree] := by
  have hlast : ending.statement? = none := by simp [Pair.statement?, Pair.item?, hending]
  have houtcomes : tree.inner.filterMap Pair.statement? = (statements text).map outcome := by
    rw [htree, List.filterMap_append, filterMap_statement? h]
    simp [hlast]
  have hitems : ((statements text).map outcome).filterMap itemOf? =
      (statements text).filterMap Statement.item? := by
    rw [List.filterMap_map]
    congr 1
    funext s
    cases s <;> rfl
  have hdiagnostics : ((statements text).map outcome).filterMap diagnosticOf? =
      (statements text).filterMap Statement.diagnostic? := by
    rw [List.filterMap_map]
    congr 1
    funext s
    cases s <;> rfl
  cases hds : (statements text).filterMap Statement.diagnostic? with
  | nil => simp only [Script.parse, scriptOf, houtcomes, hitems, hdiagnostics, hds]
  | cons d ds => simp only [Script.parse, scriptOf, houtcomes, hdiagnostics, hds]

end Statements

section Goals

def ending : Reader Unit := fun c => if c.rest.isEmpty then some ((), c) else none

theorem follows_ending {n : Nat} :
    Follows 0 n (.call .eoi) ending fun ps w _ => w = none ∧ ∃ q, ps = [q] := by
  intro c _
  unfold ending
  by_cases h : c.rest = []
  · have hstop : Matches .free (Rule.body .eoi) c.spot (some (c.spot, [])) := .stop_hit h
    refine ⟨_, Matches.call (m := .free) (r := .eoi) hstop, ?_⟩
    rw [if_pos (by rw [h]; rfl)]
    exact .some ⟨rfl, Nat.le_refl _, none, by simp, justified_none _, rfl, _, rfl⟩
  · have hstop : Matches .free (Rule.body .eoi) c.spot none := .stop_miss h
    refine ⟨_, Matches.call (m := .free) (r := .eoi) hstop, ?_⟩
    rw [if_neg (by simpa using h)]
    exact .none

def goalAt : Reader Formula := do
  let f ← formula
  blanks
  let _ ← optional (exactly ".")
  blanks
  ending
  pure f

theorem goal_eq (c : Cursor) : goal c = goalAt (c.advance (blankLength c.rest)) := by
  have hblanks : ∀ c, blanks c = some ((), c.advance (blankLength c.rest)) := fun _ => rfl
  have hgoal : goal c =
      ((do blanks; let f ← formula; blanks; let _ ← optional (exactly "."); blanks; pure f :
      Reader Formula) c).bind fun x => if x.2.rest.isEmpty then some x else none := by
    unfold goal
    split
    next h => rw [h]; rfl
    next h => rw [h]; rfl
  rw [hgoal]
  simp only [goalAt, bind_run, hblanks, Option.bind_some]
  cases formula (c.advance (blankLength c.rest)) with
  | none => rfl
  | some x =>
    simp only [Option.bind_some]
    cases optional (exactly ".") (x.2.advance (blankLength x.2.rest)) with
    | none => rfl
    | some y =>
      by_cases h : (y.2.advance (blankLength y.2.rest)).rest = [] <;> simp [ending, pure_run, h]

theorem follows_goalAt (n : Nat) :
    Follows 0 n (.seq (.call .formula) (.seq (.opt (.text ".")) (.call .eoi))) goalAt
    fun ps w f => ∃ q qs, ps = q :: qs ∧ q.rule = .formula ∧ q.formula = verdict w f := by
  have hend : ∀ f : Formula, Follows 0 n (.call .eoi) (ending >>= fun _ => pure f) fun ps w f' =>
      w = none ∧ f' = f := by
    intro f
    refine follows_ending.give ?_
    rintro ps w _ ⟨rfl, _⟩
    exact ⟨f, rfl, rfl, rfl⟩
  have hpoint : Follows 0 n (.opt (.text ".")) (optional (exactly ".")) fun ps w _ =>
    ps = [] ∧ w = none := by
    refine (follows_exactly "." (by decide)).optional.imp ?_
    intro ps w a? h
    cases a? with
    | none => exact h
    | some a => exact h
  refine ((follows_formula n).bind fun f => hpoint.bind fun _ => hend f).imp ?_
  rintro ps w f ⟨_, rs, u, _, f', rfl, rfl, ⟨q, rfl, hrule, hq⟩, _, _, _, _, _, _,
    rfl, ⟨rfl, rfl⟩, rfl, rfl⟩
  exact ⟨q, rs, rfl, hrule, by rw [hq, Option.or_none, Option.or_none]⟩

variable {x : Formula × Cursor}

theorem rest_of_goal {c : Cursor} (h : goal c = some x) : x.2.rest = [] := by
  unfold goal at h
  split at h
  next f c' _ =>
    simp only [List.isEmpty_iff, Option.ite_none_right_eq_some, Option.some.injEq] at h
    rw [← h.2]
    exact h.1
  next => cases h

theorem parseGoal_of_goal {text : String} (h : goal { rest := text.toList } = some x) :
    parseGoal text = (verdict x.2.oversized? x.1).mapError fun d => [d.diagnostic] := by
  unfold parseGoal
  rw [h]
  obtain ⟨f, c⟩ := x
  cases hc : c.oversized? <;> simp only [hc] <;> rfl

theorem goalOf_node (text : String) (span : Span) {q : Pair} (qs : List Pair)
    (h : q.rule = .formula) : goalOf [.mk .goal text span (q :: qs)] = q.formula := by
  simp [goalOf, Pair.inner, h]

theorem matches_goal (text : String) : ∃ o, Matches .free (.call .goal) ⟨text.toList, {}⟩ o ∧
    Option.Rel (fun x y => y.1.rest = [] ∧ Justified y.2 x.2.oversized? ∧
      goalOf y.2 = verdict x.2.oversized? x.1) (goal { rest := text.toList }) o := by
  let start : Cursor := { rest := text.toList }
  obtain ⟨o, ho, hrel⟩ :=
    follows_goalAt _ (start.advance (blankLength start.rest)) (Nat.lt_succ_self _)
  have hstart : Matches .free .start start.spot (some (start.spot, [])) := .start_hit rfl
  have hbody := Matches.seq (m := .free) hstart (matches_blanks start) ho
  refine ⟨_, Matches.call (m := .free) (r := .goal) hbody, ?_⟩
  rw [← goal_eq] at hrel
  cases hrun : goal start with
  | none =>
    rw [hrun] at hrel
    rw [rel_none_left hrel]
    exact .none
  | some x =>
    rw [hrun] at hrel
    obtain ⟨⟨z, ys⟩, rfl, hspot, _, w, hover, hjust, q, qs, hys, hrule, hq⟩ := rel_some_left hrel
    change z = x.2.spot at hspot
    change x.2.oversized? = w at hover
    change ys = q :: qs at hys
    subst hspot hover hys
    refine .some ⟨rest_of_goal hrun, hjust.node _ _ _, ?_⟩
    exact (goalOf_node _ _ qs hrule).trans hq

end Goals

/-- Only a number that is too large can be wrong with the node of a statement. -/
theorem Shown.defect {q : Pair} (h : Shown s q) {d : Defect} (hd : q.item? = some (.error d)) :
    ∃ p, Under p [q] ∧ Oversized p ∧ d = .oversized p.text p.span := by
  cases s with
  | item i =>
    have hitem : q.item? = some (.ok i) := h
    rw [hitem] at hd
    cases hd
  | oversized text span =>
    obtain ⟨hitem, p, hp, hover, rfl, rfl⟩ := h
    rw [hitem] at hd
    cases hd
    exact ⟨p, hp, hover, rfl⟩
  | malformed text span =>
    simp [Pair.item?, h.1] at hd

/-- Every text is taken to its end as a script in one way. What is parsed is what is built from the
tree: a script, or diagnostics that each name a malformed statement or a whole number that is too
large. Nothing else can be wrong with the tree, nor with the tree of a goal. -/
theorem parse_covers_every_text (text : String) :
    (∃ stop tree, (∀ o, Matches .free (.call .script) ⟨text.toList, {}⟩ o ↔
      o = some (stop, [tree])) ∧ stop.rest = [] ∧ Script.parse text = scriptOf [tree] ∧
      (∀ q ∈ tree.inner, ∀ defect, q.item? = some (.error defect) →
        ∃ p, Under p [q] ∧ Oversized p ∧ defect = .oversized p.text p.span) ∧
      (∀ ds, Script.parse text = .error ds → ds ≠ [] ∧ ∀ d ∈ ds, d.span?.isSome ∧
        ((d.code = "S002" ∧ ∃ q ∈ tree.inner, q.rule = .catchAll ∧
          d = Fault.diagnostic (.malformed q.text) q.span) ∨
          (d.code = "S001" ∧ ∃ q, Under q [tree] ∧ Oversized q ∧
            d = Fault.diagnostic (.oversized q.text) q.span)))) ∧
    ∀ stop ps, Matches .free (.call .goal) ⟨text.toList, {}⟩ (some (stop, ps)) → stop.rest = [] ∧
      ((∃ f, goalOf ps = .ok f ∧ parseGoal text = .ok f) ∨
        ∃ q, Under q ps ∧ Oversized q ∧ goalOf ps = .error (.oversized q.text q.span) ∧
          parseGoal text = .error [Fault.diagnostic (.oversized q.text) q.span]) := by
  refine ⟨?_, ?_⟩
  · obtain ⟨stop, tree, qs, last, hmatch, hstop, hinner, hlast, hall⟩ := matches_script text
    refine ⟨stop, tree, fun o => ⟨fun ho => hmatch.deterministic ho, fun h => h ▸ hmatch⟩, hstop,
      parse_eq_scriptOf hinner hlast hall, ?_, ?_⟩
    · intro q hq d hd
      rw [hinner, List.mem_append, List.mem_singleton] at hq
      rcases hq with hq | rfl
      · obtain ⟨s, _, hs⟩ := (exists_shown hall).2 q hq
        exact hs.defect hd
      · simp [Pair.item?, hlast] at hd
    · intro ds hds
      obtain ⟨rfl, hne⟩ := parse_eq_error hds
      refine ⟨hne, fun d hd => ?_⟩
      obtain ⟨s, hs, hsd⟩ := List.mem_filterMap.mp hd
      obtain ⟨q, hq, hshown⟩ := (exists_shown hall).1 s hs
      have hmem : q ∈ tree.inner := hinner ▸ List.mem_append_left _ hq
      cases s with
      | item i => cases hsd
      | oversized text span =>
        cases hsd
        obtain ⟨_, p, hp, hover, rfl, rfl⟩ := hshown
        have hunder : Under p tree.inner :=
          hp.mono fun _ hmem' => by rwa [List.mem_singleton.mp hmem']
        exact ⟨rfl, .inr ⟨rfl, p, .inside (List.mem_singleton_self _) hunder, hover, rfl⟩⟩
      | malformed text span =>
        cases hsd
        obtain ⟨hrule, rfl, rfl⟩ := hshown
        exact ⟨rfl, .inl ⟨rfl, q, hmem, hrule, rfl⟩⟩
  · intro stop ps hmatch
    obtain ⟨o, ho, hrel⟩ := matches_goal text
    cases ho.deterministic hmatch
    cases hrun : goal { rest := text.toList } with
    | none =>
      rw [hrun] at hrel
      cases hrel
    | some x =>
      rw [hrun] at hrel
      cases hrel with
      | some hxy =>
        obtain ⟨hrest, hjust, hgoal⟩ := hxy
        refine ⟨hrest, ?_⟩
        have hparse := parseGoal_of_goal hrun
        cases hover : x.2.oversized? with
        | none =>
          rw [hover] at hgoal hparse
          exact .inl ⟨x.1, hgoal, hparse⟩
        | some t =>
          rw [hover] at hgoal hparse
          obtain ⟨q, hq, hrule, htext, hspan, hfits⟩ := hjust t hover
          refine .inr ⟨q, hq, ⟨hrule, hfits⟩, ?_, ?_⟩
          · rw [hgoal, htext, hspan]
            rfl
          · rw [hparse, htext, hspan]
            rfl

def oversizedFact : String := "p(9223372036854775808)."

theorem parse_covers_oversizedFact :
    (∃ ds, Script.parse oversizedFact = .error ds ∧ ds ≠ [] ∧ ∀ d ∈ ds, d.span?.isSome) ∧
      ∃ stop ps, Matches .free (.call .goal) ⟨oversizedFact.toList, {}⟩ (some (stop, ps)) ∧
      stop.rest = [] := by
  obtain ⟨⟨stop, tree, _, _, _, _, herrors⟩, hgoals⟩ := parse_covers_every_text oversizedFact
  refine ⟨?_, ?_⟩
  · cases hparse : Script.parse oversizedFact with
    | ok script =>
      have herror : (Script.parse oversizedFact).toBool = false := by decide +kernel
      rw [hparse] at herror
      cases herror
    | error ds =>
      obtain ⟨hne, hall⟩ := herrors ds hparse
      exact ⟨ds, rfl, hne, fun d hd => (hall d hd).1⟩
  · obtain ⟨o, ho, hrel⟩ := matches_goal oversizedFact
    cases hrun : goal { rest := oversizedFact.toList } with
    | none =>
      have hsome : (goal { rest := oversizedFact.toList }).isSome := by decide +kernel
      rw [hrun] at hsome
      cases hsome
    | some x =>
      rw [hrun] at hrel
      obtain ⟨⟨stop, ps⟩, rfl, _⟩ := rel_some_left hrel
      exact ⟨stop, ps, ho, (hgoals stop ps ho).1⟩

end GraphRules.Grammar
