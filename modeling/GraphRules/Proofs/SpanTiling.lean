import GraphRules.Proofs.Outlines
import GraphRules.Proofs.QueryGoals
import GraphRules.Proofs.RepeatedStatements

/-! Spans tile scripts. A text that is read without a fault is made of its items and of blanks and
complete comments around them, and every span of an item and of what it is made of tells where in
the text it stands. -/
namespace GraphRules.Script

open Outline (Row row_nil)

def IsSpacing (cs : List Char) : Prop := ∃ gs, cs = pieceText gs ∧ gs.all Piece.isGap ∧ Chain gs []

inductive Tiles : List Char → List Span → List Char → Prop
  /-- A comment in the last line is complete without the end of the line. -/
  | last {before rest : List Char} (hrest : IsSpacing (rest ++ ['\n'])) : Tiles before [] rest
  | next {before gap inside rest : List Char} {s : Span} {ss : List Span} (hgap : IsSpacing gap)
      (hspan : s.Covers (before ++ gap) inside) (hrest : Tiles (before ++ gap ++ inside) ss rest) :
      Tiles before (s :: ss) (gap ++ inside ++ rest)

section Spacing

variable {gs : List Piece} {cs r : List Char}

/-- Gaps before anything but the end of a line are complete by themselves. -/
theorem Chain.complete (h : Chain gs r) (hr : ¬ (r.head? = some '\n' ∨ r.head? = some '\r'))
    (hgs : ∀ g ∈ gs, g.isGap) : Chain gs [] := by
  induction gs with
  | nil => trivial
  | cons g gs ih =>
    obtain ⟨hg, hapart, hchain⟩ := h
    obtain ⟨hgap, hgs⟩ := List.forall_mem_cons.mp hgs
    refine ⟨hg, ?_, ih hchain hgs⟩
    cases g with
    | token t => cases hgap
    | blank c => trivial
    | block inner => trivial
    | line opening inner =>
      change _ ∨ _ at hapart
      cases hrest : pieceText gs with
      | nil =>
        rw [hrest, List.nil_append] at hapart
        exact (hr hapart).elim
      | cons x xs =>
        rw [hrest] at hapart
        exact hapart

theorem isSpacing_of_chain (hgs : gs.all Piece.isGap) (h : Chain gs r)
    (hr : ¬ (r.head? = some '\n' ∨ r.head? = some '\r')) : IsSpacing (pieceText gs) :=
  ⟨gs, rfl, hgs, h.complete hr (List.all_eq_true.mp hgs)⟩

theorem not_break_of_blankLength (h : blankLength cs = 0) :
    ¬ (cs.head? = some '\n' ∨ cs.head? = some '\r') := by
  cases cs with
  | nil => simp
  | cons x xs =>
    simp only [List.head?_cons, Option.some.injEq]
    rintro (rfl | rfl) <;> simp [blankLength] at h

theorem isSpacing_take (h : blankLength cs < cs.length) : IsSpacing (cs.take (blankLength cs)) := by
  have hzero := blankLength_drop cs
  rcases gapsAt_blankLength cs with hlen | ⟨gs, r, hcs, hgs, hchain, hlen⟩
  · omega
  · rw [hlen] at hzero ⊢
    rw [hcs, List.drop_left] at hzero
    rw [hcs, List.take_left]
    exact isSpacing_of_chain hgs hchain (not_break_of_blankLength hzero)

theorem isSpacing_concat (h : cs.length ≤ blankLength cs) : IsSpacing (cs ++ ['\n']) := by
  have hgaps := gapsAt_blankLength (cs ++ closing)
  rw [blankLength_closing, if_pos h] at hgaps
  rcases hgaps with hlen | ⟨gs, r, hcs, hgs, hchain, hlen⟩
  · simp [closing] at hlen
  · have hsplit : (cs ++ ['\n']) ++ ['.'] = pieceText gs ++ r := by simpa [closing] using hcs
    obtain ⟨htext, rfl⟩ := List.append_inj hsplit (by simpa using hlen)
    rw [htext]
    exact isSpacing_of_chain hgs hchain (by decide)

end Spacing

section Statements

variable {text before : List Char} {os : List Outline} {c c' : Cursor}

/-- The next item stands after spacing, and its outline is laid after those of the items before it.
-/
theorem exists_tile {i : Item} (h : nextStatement c = some (.item i, c')) (hc : c.After text before)
    (hlaid : Laid text 0 0 os c) : ∃ gap inside, c.rest = gap ++ inside ++ c'.rest ∧ IsSpacing gap ∧
      i.span.Covers (before ++ gap) inside ∧ c'.After text (before ++ gap ++ inside) ∧
      Laid text 0 0 (os ++ [i.outline]) c' := by
  obtain ⟨hitem, _⟩ := item_of_statement (nextStatement_eq c ▸ h)
  set n := blankLength c.rest
  set d : Cursor := { c.advance n with oversized? := none }
  have hdlaid : Laid text 0 0 os d := (hlaid.advance n).congr rfl rfl
  have hdafter : d.After text (before ++ c.rest.take n) := hc.advance n
  have hstart := draws_item 0 [] d.place.offset d i c' hitem hdlaid.start
  obtain ⟨before', hbefore'⟩ := hstart.stands
  obtain ⟨inside, rfl, hrest, hcovers⟩ := hdafter.exists_between hbefore' hstart.passed
  -- A comment that runs to the end of the text is no spacing by itself, but an item was read after
  -- this one.
  have hmore : n < c.rest.length := by
    by_contra hle
    have hnil : d.rest = [] := List.drop_eq_nil_iff.mpr (Nat.le_of_not_lt hle)
    exact hcovers.nonempty (List.append_eq_nil_iff.mp (hrest.symm.trans hnil)).1
  refine ⟨c.rest.take n, inside, ?_, isSpacing_take hmore, ?_, hbefore', ?_⟩
  · rw [List.append_assoc, ← hrest]
    exact (List.take_append_drop n c.rest).symm
  · rw [span_of_item hitem]
    exact hcovers
  · exact (draws_item 0 os 0 d i c' hitem hdlaid).weaken (Nat.zero_le _)

theorem tiles_statementsAt {items : List Item} (h : statementsAt c = items.map .item)
    (hc : c.After text before) (hlaid : Laid text 0 0 os c) :
    Tiles before (items.map Item.span) c.rest ∧
      ∃ high, Row (Span.Of text) 0 high (os ++ items.map Item.outline) := by
  -- What is laid before the cursor grows with each item, so the row at the end is that of all
  -- items.
  induction items generalizing c before os with
  | nil =>
    cases hnext : nextStatement c with
    | none =>
      have hend : c.rest.length ≤ blankLength c.rest :=
        List.drop_eq_nil_iff.mp (Grammar.atEnd_of_none hnext)
      exact ⟨.last (isSpacing_concat hend), _, by simpa using hlaid.row⟩
    | some x =>
      rw [statementsAt_of_some hnext] at h
      cases h
  | cons i items ih =>
    cases hnext : nextStatement c with
    | none =>
      rw [statementsAt_of_none hnext] at h
      cases h
    | some x =>
      obtain ⟨s, c'⟩ := x
      rw [statementsAt_of_some hnext] at h
      obtain ⟨rfl, hothers⟩ := List.cons.inj h
      obtain ⟨gap, inside, hrest, hgap, hspan, hafter, hlaid'⟩ := exists_tile hnext hc hlaid
      obtain ⟨htiles, high, hrow⟩ := ih hothers hafter hlaid'
      exact ⟨hrest ▸ .next hgap hspan htiles, high, by simpa using hrow⟩

end Statements

/-- The items of a script take disjoint stretches of its text, one after another, with nothing but
blanks and complete comments around them; what an item is made of takes stretches inside it in the
same way, and so on down to arguments. Every span tells the bytes, the line and the column of its
stretch. -/
theorem spans_tile {text : String} {script : Script} (h : parse text = .ok script) :
    Tiles [] (script.items.map Item.span) text.toList ∧
      (script.items.map Item.span).Pairwise (fun s t => s.stop ≤ t.start) ∧
      ∀ i ∈ script.items, i.outline.Nested (Span.Of text.toList) := by
  have hstart : Cursor.After text.toList [] { rest := text.toList } := ⟨rfl, rfl⟩
  have hlaid : Laid text.toList 0 0 [] { rest := text.toList } :=
    ⟨⟨[], hstart⟩, Nat.le_refl _, row_nil⟩
  have hstatements : statementsAt { rest := text.toList } = script.items.map .item :=
    parse_eq_ok_iff.mp h
  obtain ⟨htiles, high, hrow⟩ := tiles_statementsAt hstatements hstart hlaid
  refine ⟨htiles, List.pairwise_map.mpr ?_, fun i hi => hrow.nested _ (List.mem_map_of_mem hi)⟩
  refine (List.pairwise_map.mp hrow.apart).imp ?_
  intro i j hij
  rwa [i.span_outline, j.span_outline] at hij

/-- Items between comments of all kinds, with negations of a predicate and of a group, and a comment
in the last line. -/
def annotated : String :=
  "% é\r\nnode labels: \"ü\" as u , b.\n/* ß */ not r , not (q(X) ; \"é\" < 2) -> s(X, _) .// é"

theorem spans_tile_annotated : ∃ script, parse annotated = .ok script ∧
    script.items.map Item.span = [⟨6, 33, 2, 1⟩, ⟨43, 85, 3, 9⟩] ∧
    Tiles [] (script.items.map Item.span) annotated.toList ∧
    (script.items.map Item.span).Pairwise (fun s t => s.stop ≤ t.start) ∧
    ∀ i ∈ script.items, i.outline.Nested (Span.Of annotated.toList) := by
  have hspans : (statements annotated).map (fun s => s.item?.map Item.span) =
      [some ⟨6, 33, 2, 1⟩, some ⟨43, 85, 3, 9⟩] := by decide +kernel
  obtain ⟨script, hscript⟩ := exists_script annotated (by decide +kernel)
  refine ⟨script, hscript, ?_, spans_tile hscript⟩
  rw [parse_eq_ok_iff.mp hscript, List.map_map] at hspans
  refine List.map_injective_iff.mpr (Option.some_injective _) ?_
  rw [List.map_map]
  exact hspans

end GraphRules.Script
