import GraphRules.Proofs.DeclaredQueries
import GraphRules.Proofs.FindingCodes
import GraphRules.Proofs.TellingItems

/-! Statements that repeat earlier ones. They are found by their texts, and told by the first
statement of that text and the span of the statement at hand, which is the span of no other. So a
statement is reported exactly if an earlier one looks the same. -/
namespace GraphRules

open Check Script

namespace Script

section Spans

variable {c c' : Cursor} {i : Item} {source : String} {script : Script}

theorem spanned_span {α : Type} {p : Reader α} {f : α × Span → Item} (hf : ∀ x, (f x).span = x.2)
    (h : (spanned p >>= fun x => pure (f x)) c = some (i, c')) :
    i.span = Span.between c.place c'.place := by
  rw [bind_run] at h
  obtain ⟨x, hx, hi⟩ := Option.bind_eq_some_iff.mp h
  cases hi
  rw [hf]
  unfold spanned at hx
  split at hx
  · cases hx
    rfl
  · cases hx

theorem span_of_item (h : item c = some (i, c')) : i.span = Span.between c.place c'.place := by
  rw [item, orElse_run, orElse_run] at h
  rcases Option.or_eq_some_iff.mp h with h | ⟨_, h⟩
  · exact spanned_span (fun _ => rfl) h
  rcases Option.or_eq_some_iff.mp h with h | ⟨_, h⟩
  · exact spanned_span (fun _ => rfl) h
  · exact spanned_span (fun _ => rfl) h

theorem offset_of_item (h : item c = some (i, c')) : i.span.start < c'.place.offset := by
  obtain ⟨hstop, ps, hrest, _⟩ := exists_pieces_of_item h
  have hoffset := congrArg Place.offset hstop
  rw [Cursor.stop, Cursor.stop, hrest, Place.foldl_next_offset, Place.foldl_next_offset] at hoffset
  have hsize : (String.ofList (pieceText ps ++ '.' :: c'.rest)).utf8ByteSize =
      (String.ofList (pieceText ps)).utf8ByteSize + (1 + (String.ofList c'.rest).utf8ByteSize) := by
    rw [← List.singleton_append, String.ofList_append, String.ofList_append,
      String.utf8ByteSize_append, String.utf8ByteSize_append]
    rfl
  rw [span_of_item h]
  change c.place.offset < c'.place.offset
  omega

/-- Items start one after another, none before the place where reading starts. -/
theorem starts_increase (hall : ∀ s ∈ statementsAt c, ∃ i, s = .item i) :
    (∀ i ∈ (statementsAt c).filterMap Statement.item?, c.place.offset ≤ i.span.start) ∧
      ((statementsAt c).filterMap Statement.item?).Pairwise fun i j =>
        i.span.start < j.span.start := by
  induction hn : c.rest.length using Nat.strongRecOn generalizing c with
  | ind n ih =>
    cases hnext : nextStatement c with
    | none =>
      rw [statementsAt_of_none hnext]
      exact ⟨List.forall_mem_nil _, .nil⟩
    | some x =>
      obtain ⟨s, c'⟩ := x
      have hlen := length_of_nextStatement hnext
      rw [statementsAt_of_some hnext] at hall ⊢
      obtain ⟨i, rfl⟩ := hall s (List.mem_cons_self ..)
      obtain ⟨hleast, hpairwise⟩ :=
        ih _ (hn ▸ hlen) (fun s hs => hall s (List.mem_cons_of_mem _ hs)) rfl
      obtain ⟨hitem, _⟩ := item_of_statement hnext
      have hstart : c.place.offset ≤ i.span.start := by
        rw [span_of_item hitem]
        exact c.offset_advance _
      have hlater : ∀ j ∈ (statementsAt c').filterMap Statement.item?,
          i.span.start < j.span.start := fun j hj =>
        Nat.lt_of_lt_of_le (offset_of_item hitem) (hleast j hj)
      rw [List.filterMap_cons_some (show Statement.item? (.item i) = some i from rfl)]
      refine ⟨List.forall_mem_cons.mpr ⟨hstart, fun j hj => ?_⟩,
        List.pairwise_cons.mpr ⟨hlater, hpairwise⟩⟩
      exact Nat.le_trans hstart (Nat.le_of_lt (hlater j hj))

theorem spans_apart (h : parse source = .ok script) :
    script.items.Pairwise fun i j => i.span ≠ j.span := by
  obtain ⟨hnone, hitems⟩ := parse_eq_ok h
  rw [hitems, statements_eq]
  have hall : ∀ s ∈ statementsAt { rest := source.toList }, ∃ i, s = .item i := fun s hs =>
    exists_item_of_diagnostic? (List.filterMap_eq_nil_iff.mp hnone s hs)
  refine (starts_increase hall).2.imp ?_
  intro i j hlt heq
  rw [heq] at hlt
  exact Nat.lt_irrefl _ hlt

/-- The span of an item shows where it stands in its script. -/
theorem split_at_span (h : parse source = .ok script) {before before' after after' : List Item}
    {i' : Item} (heq : script.items = before ++ i :: after)
    (heq' : script.items = before' ++ i' :: after') (hspan : i.span = i'.span) :
    before = before' ∧ i = i' := by
  have hnodup : (script.items.map Item.span).Nodup := List.pairwise_map.mpr (spans_apart h)
  have hspans : before.map Item.span ++ i.span :: after.map Item.span =
      before'.map Item.span ++ i'.span :: after'.map Item.span := by
    rw [← List.map_cons, ← List.map_append, ← heq, heq', List.map_append, List.map_cons]
  rw [heq, List.map_append, List.map_cons] at hnodup
  obtain ⟨hnot, _⟩ := List.nodup_cons.mp (List.nodup_middle.mp hnodup)
  rw [hspan, List.mem_append, not_or] at hnot
  have hlength := congrArg List.length ((List.append_cons_inj_of_notMem hnot.1 hnot.2).mp hspans).1
  rw [List.length_map, List.length_map] at hlength
  obtain ⟨hsame, htail⟩ := List.append_inj (heq.symm.trans heq') hlength
  exact ⟨hsame, (List.cons.inj htail).1⟩

end Spans

end Script

namespace Check

variable {v : Vocabulary} {ds : List Definition} {earlier items : List Item} {i : Item} {f : Found}

theorem mem_repeatedFindings :
    f ∈ repeatedFindings earlier i ↔ ∃ before j after, earlier = before ++ j :: after ∧
    j.text = i.text ∧ (∀ k ∈ before, k.text ≠ i.text) ∧ f = (.repeated j.span, i.span) := by
  unfold repeatedFindings
  cases hfind : earlier.find? fun j => j.text = i.text with
  | none =>
    have hnone := List.find?_eq_none.mp hfind
    refine iff_of_false (List.not_mem_nil) ?_
    rintro ⟨before, j, after, rfl, htext, _⟩
    exact hnone j (by simp) (decide_eq_true htext)
  | some j =>
    obtain ⟨htext, before, after, heq, hfirst⟩ := List.find?_eq_some_iff_append.mp hfind
    rw [List.mem_singleton]
    constructor
    · rintro rfl
      exact ⟨before, j, after, heq, of_decide_eq_true htext,
        fun k hk => by simpa using hfirst k hk, rfl⟩
    · rintro ⟨before', j', after', heq', htext', hfirst', rfl⟩
      have hfind' : earlier.find? (fun j => j.text = i.text) = some j' :=
        List.find?_eq_some_iff_append.mpr
          ⟨decide_eq_true htext', before', after', heq', fun k hk => by simpa using hfirst' k hk⟩
      cases hfind.symm.trans hfind'
      rfl

theorem mem_itemsFindings_repeated (hcode : f.1.code = "W003") :
    f ∈ itemsFindings v ds earlier items ↔ ∃ before i after, items = before ++ i :: after ∧
      f ∈ repeatedFindings (earlier ++ before) i := by
  induction items generalizing earlier with
  | nil => simp [itemsFindings]
  | cons i items ih =>
    have hitem : f ∉ itemFindings v ds i :=
      fun hf => by simpa [hcode, statementCodes] using raises_itemFindings i f hf
    rw [itemsFindings, List.mem_append, List.mem_append, ih]
    constructor
    · rintro ((hhere | hitem') | ⟨before, j, after, rfl, hlater⟩)
      · exact ⟨[], i, items, rfl, by rwa [List.append_nil]⟩
      · exact (hitem hitem').elim
      · exact ⟨i :: before, j, after, rfl, by simpa using hlater⟩
    · rintro ⟨before, j, after, heq, hf⟩
      cases before with
      | nil =>
        cases heq
        exact .inl (.inl (by rwa [List.append_nil] at hf))
      | cons k before =>
        cases heq
        exact .inr ⟨before, j, after, rfl, by simpa using hf⟩

end Check

namespace Script

variable {s : Script} {v : Vocabulary}

/-- A statement is warned of as a repeat exactly if an earlier one has its text, and the first of
these is named. -/
theorem mem_warnings_repeated {d : Diagnostic} :
    (d ∈ (s.check v).warnings ∧ d.code = "W003") ↔
      ∃ before i after, s.items = before ++ i :: after ∧
      ∃ first j others, before = first ++ j :: others ∧ j.text = i.text ∧
      (∀ k ∈ first, k.text ≠ i.text) ∧ d = (Finding.repeated j.span).diagnostic i.span := by
  have hfindings : ∀ f : Found, f.1.code = "W003" →
      (f ∈ findings v s ↔ ∃ before i after, s.items = before ++ i :: after ∧
        f ∈ repeatedFindings before i) := by
    intro f hcode
    have hdefine : f ∉ (defineAll v [] (s.items.flatMap entries)).2 := fun hf => by
      simpa [hcode] using raises_defineAll _ f hf
    have hunused : f ∉ unusedLabels s.items :=
      fun hf => by simpa [hcode] using raises_unusedLabels _ f hf
    rw [findings, List.mem_append, List.mem_append, mem_itemsFindings_repeated hcode]
    simp [hdefine, hunused]
  constructor
  · rintro ⟨hd, hcode⟩
    obtain ⟨f, hf, rfl⟩ := List.mem_map.mp (List.mem_filter.mp hd).1
    obtain ⟨before, i, after, heq, hf⟩ := (hfindings f hcode).mp hf
    obtain ⟨first, j, others, hbefore, htext, hfirst, rfl⟩ := mem_repeatedFindings.mp hf
    exact ⟨before, i, after, heq, first, j, others, hbefore, htext, hfirst, rfl⟩
  · rintro ⟨before, i, after, heq, first, j, others, hbefore, htext, hfirst, rfl⟩
    have hrepeated : ((.repeated j.span, i.span) : Found) ∈ repeatedFindings before i :=
      mem_repeatedFindings.mpr ⟨first, j, others, hbefore, htext, hfirst, rfl⟩
    have hf := (hfindings _ rfl).mpr ⟨before, i, after, heq, hrepeated⟩
    exact ⟨List.mem_filter.mpr ⟨List.mem_map_of_mem hf, rfl⟩, rfl⟩

/-- Items of scripts that were read have one text exactly if they look the same. -/
theorem text_eq_iff {source source' : String} {script script' : Script}
    (h : parse source = .ok script) (h' : parse source' = .ok script') {i j : Item}
    (hi : i ∈ script.items) (hj : j ∈ script'.items) : i.text = j.text ↔ i.shown = j.shown := by
  refine ⟨shown_of_text_eq (made_of_parse h i hi) (made_of_parse h' j hj), fun heq => ?_⟩
  rw [← i.text_shown, ← j.text_shown, heq]

/-- A statement is warned of as a repeat exactly if an earlier one looks the same, and the warning
names the first of these. Items with one text look the same, in this script and in any other; and
unless infinity is among their arguments, they are the same but for their spans. -/
theorem repeats_exactly_warned {source : String} {script : Script}
    (h : parse source = .ok script) (v : Vocabulary) :
    (∀ before i after, script.items = before ++ i :: after → ∀ d,
      (d ∈ (script.check v).warnings ∧ d.code = "W003" ∧ d.span? = some i.span) ↔
        ∃ first j others, before = first ++ j :: others ∧ j.shown = i.shown ∧
          (∀ k ∈ first, k.shown ≠ i.shown) ∧ d = (Finding.repeated j.span).diagnostic i.span) ∧
    ∀ source' script', parse source' = .ok script' → ∀ i ∈ script.items, ∀ j ∈ script'.items,
      (i.text = j.text ↔ i.shown = j.shown) ∧
      (FiniteArgs (i.args ++ j.args) → (i.text = j.text ↔ i.mapSpan blot = j.mapSpan blot)) := by
  constructor
  · intro before i after heq d
    have hmem : ∀ k ∈ before, k ∈ script.items := fun k hk => heq ▸ List.mem_append_left _ hk
    have hi : i ∈ script.items := heq ▸ List.mem_append_right _ (List.mem_cons_self ..)
    have hlooks : ∀ k ∈ before, (k.text = i.text ↔ k.shown = i.shown) :=
      fun k hk => text_eq_iff h h (hmem k hk) hi
    rw [← and_assoc, mem_warnings_repeated]
    constructor
    · rintro ⟨⟨before', i', after', heq', first, j, others, hbefore, htext, hfirst, rfl⟩, hspan⟩
      obtain ⟨rfl, rfl⟩ := split_at_span h heq' heq (Option.some.inj hspan)
      refine ⟨first, j, others, hbefore, ?_, fun k hk => ?_, rfl⟩
      · exact (hlooks j (by simp [hbefore])).mp htext
      · exact fun hsame => hfirst k hk ((hlooks k (by simp [hbefore, hk])).mpr hsame)
    · rintro ⟨first, j, others, rfl, hsame, hfirst, rfl⟩
      refine ⟨⟨_, i, after, heq, first, j, others, rfl, ?_, fun k hk => ?_, rfl⟩, rfl⟩
      · exact (hlooks j (by simp)).mpr hsame
      · exact fun htext => hfirst k hk ((hlooks k (List.mem_append_left _ hk)).mp htext)
  · intro source' script' h' i hi j hj
    refine ⟨text_eq_iff h h' hi hj, fun hfinite => ?_⟩
    rw [text_eq_iff h h' hi hj, Item.shown_eq hfinite.left, Item.shown_eq hfinite.right]

def linkSource : String :=
  "edge(X, Y), not (size(X, inf); X == Y) -> link(X, Y).\nsize(a, 1.50).\n" ++
    "edge( X,Y ),not(size(X,inf);X==Y)->link(X,Y). % again\n"

theorem repeats_exactly_warned_link :
    ∃ script before i, parse linkSource = .ok script ∧ script.items = before ++ [i] ∧
    (∃ d, d ∈ (script.check Compiler.standardVocabulary).warnings ∧ d.code = "W003" ∧
      d.span? = some i.span) ∧
    ∃ first j others, before = first ++ j :: others ∧ FiniteArgs (j.args ++ i.args) ∧
      j.mapSpan blot = i.mapSpan blot := by
  obtain ⟨script, hparse, hs⟩ := exists_ok_of_any (r := parse linkSource) (P := fun s =>
    s.items.all (fun i => decide (FiniteArgs i.args)) && s.items.getLast?.any fun i =>
      (s.check Compiler.standardVocabulary).warnings.any fun d =>
        d.code = "W003" && d.span? = some i.span)
    (by decide +kernel)
  obtain ⟨hall, hlast⟩ := Bool.and_eq_true_iff.mp hs
  obtain ⟨i, hi, hwarned⟩ := (Option.any_eq_true _ _).mp hlast
  obtain ⟨before, hitems⟩ := List.getLast?_eq_some_iff.mp hi
  obtain ⟨d, hd, htold⟩ := List.any_eq_true.mp hwarned
  rw [Bool.and_eq_true, decide_eq_true_eq, decide_eq_true_eq] at htold
  obtain ⟨hrepeats, htexts⟩ := repeats_exactly_warned hparse Compiler.standardVocabulary
  obtain ⟨first, j, others, hbefore, hsame, _⟩ := (hrepeats before i [] hitems d).mp ⟨hd, htold⟩
  have hj : j ∈ script.items := by simp [hitems, hbefore]
  have hi' : i ∈ script.items := by simp [hitems]
  have hfinite : ∀ k ∈ script.items, FiniteArgs k.args :=
    fun k hk => of_decide_eq_true (List.all_eq_true.mp hall k hk)
  have hboth : FiniteArgs (j.args ++ i.args) :=
    List.forall_mem_append.mpr ⟨hfinite j hj, hfinite i hi'⟩
  obtain ⟨hlooks, hspans⟩ := htexts linkSource script hparse j hj i hi'
  exact ⟨script, before, i, hparse, hitems, ⟨d, hd, htold⟩, first, j, others, hbefore, hboth,
    (hspans hboth).mp (hlooks.mpr hsame)⟩

/-- A script from characters, from what can be computed without making a text of them first. -/
theorem exists_script_of_chars (cs : List Char) {P : Script → Bool}
    (h : ((statementsAt { rest := cs }).all fun s => s.diagnostic?.isNone) &&
      P ⟨(statementsAt { rest := cs }).filterMap Statement.item?⟩) :
    ∃ s, parse (String.ofList cs) = .ok s ∧ P s := by
  have hstatements : statements (String.ofList cs) = statementsAt { rest := cs } := by
    rw [statements_eq, String.toList_ofList]
  obtain ⟨hall, hP⟩ := Bool.and_eq_true_iff.mp h
  refine ⟨_, parse_of_nil ?_, by rwa [hstatements]⟩
  simpa [hstatements, List.filterMap_eq_nil_iff] using hall

def infinityChars : List Char :=
  "size(inf).\nsize(1".toList ++ List.replicate 309 '0' ++ ".0).".toList

/-- A statement may be reported that repeats no other. -/
theorem infinity_repeats_symbol :
    ∃ script i j d, parse (String.ofList infinityChars) = .ok script ∧ script.items = [i, j] ∧
      d ∈ (script.check Compiler.standardVocabulary).warnings ∧ d.code = "W003" ∧
      d.span? = some j.span ∧ i.mapSpan blot ≠ j.mapSpan blot := by
  obtain ⟨script, hparse, hs⟩ := exists_script_of_chars infinityChars (P := fun s =>
    s.items.map (fun i => (i.mapSpan blot).args.map Arg.isNumber) = [[false], [true]] &&
      (s.check Compiler.standardVocabulary).warnings.any fun d =>
        d.code = "W003" && d.span? = s.items.getLast?.map Item.span)
    (by decide +kernel)
  obtain ⟨hkinds, hwarned⟩ := Bool.and_eq_true_iff.mp hs
  obtain ⟨i, is, hitems, hi, his⟩ := List.map_eq_cons_iff.mp (of_decide_eq_true hkinds)
  obtain ⟨j, js, rfl, hj, hjs⟩ := List.map_eq_cons_iff.mp his
  obtain rfl := List.map_eq_nil_iff.mp hjs
  obtain ⟨d, hd, htold⟩ := List.any_eq_true.mp hwarned
  rw [Bool.and_eq_true, decide_eq_true_eq, decide_eq_true_eq, hitems] at htold
  refine ⟨script, i, j, d, hparse, hitems, hd, htold.1, htold.2, fun heq => ?_⟩
  rw [heq, hj] at hi
  cases hi

end Script

end GraphRules
