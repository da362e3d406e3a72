import GraphRules.Proofs.Statements

/-! Scripts one after another. A script that is in order can be followed by any text: its items stay
as they are, and the items or diagnostics of what follows are those of that text on its own, moved
to where it stands. -/
namespace GraphRules.Script

section Blanks

variable {w z : List Char}

/-- A line break after blanks only is one more blank. It may be what ends a comment. -/
theorem blankLength_append_break (h : w.length ≤ blankLength w) :
    blankLength (w ++ '\n' :: z) = w.length + blankLength ('\n' :: z) := by
  have hbreak : blankLength ('\n' :: z) = blankLength z + 1 := by simp [blankLength]
  refine (blankLength.mutual_induct
    (fun w => w.length ≤ blankLength w →
    blankLength (w ++ '\n' :: z) = w.length + blankLength ('\n' :: z))
    (fun w => ∀ n, blockLength? w = some n → w.length ≤ n →
      blockLength? (w ++ '\n' :: z) = some (w.length + blankLength ('\n' :: z)))
    (fun w => w.length ≤ lineLength w →
    lineLength (w ++ '\n' :: z) = w.length + blankLength ('\n' :: z))
    ?_ ?_ ?_ ?_ ?_ ?_ ?_ ?_ ?_ ?_ ?_ ?_ ?_).1 w h
  · intro _
    simp
  · intro cs ih h
    simp only [blankLength, List.length_cons, List.cons_append] at h ⊢
    rw [ih (by omega)]
    omega
  · intro cs ih h
    simp only [blankLength, List.length_cons, List.cons_append] at h ⊢
    rw [ih (by omega)]
    omega
  · intro cs n hn ih h
    simp only [blankLength, hn, List.length_cons, List.cons_append] at h ⊢
    rw [ih n hn (by omega)]
    simp only
    omega
  · intro cs hn ih h
    simp [blankLength, hn] at h
  · intro c cs hpercent hslash hstar hc ih h
    rw [blankLength.eq_5 c cs hpercent hslash hstar, if_pos hc, List.length_cons] at h
    have hblank := ih (by omega)
    have hcons : blankLength (c :: (cs ++ '\n' :: z)) = blankLength (cs ++ '\n' :: z) + 1 := by
      rcases hc with rfl | rfl | rfl | rfl <;> simp [blankLength]
    rw [List.cons_append, hcons, hblank, List.length_cons]
    omega
  · intro c cs hpercent hslash hstar hc h
    rw [blankLength.eq_5 c cs hpercent hslash hstar, if_neg hc, List.length_cons] at h
    omega
  · intro n hn
    cases hn
  · intro cs ih n hn h
    cases hn
    simp only [blockLength?, List.length_cons, List.cons_append] at h ⊢
    rw [ih (by omega)]
    simp only [Option.some.injEq]
    omega
  · intro c cs hmark ih n hn h
    rw [blockLength?.eq_3 c cs hmark] at hn
    obtain ⟨k, hk, rfl⟩ := Option.map_eq_some_iff.mp hn
    simp only [List.length_cons] at h
    rw [List.cons_append, blockLength?.eq_3, ih k hk (by omega)]
    · simp
      omega
    · rintro ds rfl hds
      cases cs with
      | nil => simp at hds
      | cons x xs => exact hmark xs rfl (by simpa using (List.cons.inj hds).1)
  · intro _
    simp [lineLength, hbreak]
  · intro c cs hc ih h
    simp only [lineLength, hc, if_true, List.length_cons, List.cons_append] at h ⊢
    rw [ih (by omega)]
    omega
  · intro c cs hc ih h
    simp only [lineLength, hc, if_false, List.length_cons, List.cons_append] at h ⊢
    rw [ih (by omega)]
    omega

end Blanks

theorem Statement.mapSpan_id : Statement.mapSpan id = id := by
  funext s
  cases s with
  | item i => exact congrArg Statement.item (Item.mapSpan_id i)
  | oversized text span => rfl
  | malformed text span => rfl

variable {c d : Cursor} {y : List Char} {text : String} {script : Script} {ds : List Diagnostic}

/-- Where a text stands and what was too large before it plays no part. -/
theorem statementsAt_eq (hrest : d.rest = c.rest) (hplace : d.place = c.place) :
    statementsAt d = statementsAt c := by
  have hmoved := statementsAt_moved (δ := .none) (c := c) (d := d) ⟨hrest, hplace⟩
  rwa [Span.shift_none, Statement.mapSpan_id, List.map_id] at hmoved

theorem undigited_append_break {z : List Char} (h : Undigited y) : Undigited (y ++ '\n' :: z) := by
  cases y with
  | nil => simp [Undigited]
  | cons x xs => simpa [Undigited] using h

theorem pointless_append_break {r z : List Char} (h : Pointless r) :
    Pointless (r ++ '\n' :: z) := by
  rintro ds hds
  cases r with
  | nil => simp at hds
  | cons x xs =>
    obtain ⟨rfl, rfl⟩ := List.cons.inj hds
    exact undigited_append_break (h xs rfl)

theorem blankLength_append_statement {w z : List Char} {ps : List Piece}
    (hpieces : w.drop (blankLength w) = pieceText ps ++ '.' :: y) (hchain : Chain ps ('.' :: y)) :
    blankLength (w ++ '\n' :: z) = blankLength w := by
  rcases gapsAt_blankLength w with hlen | ⟨gs, r, hw, hgs, hgaps, hlen⟩
  · simp [List.drop_eq_nil_of_le hlen] at hpieces
  · have hr : r = pieceText ps ++ '.' :: y := by
      rw [← hpieces, hlen, hw, List.drop_left]
    obtain ⟨gs', qs, rfl, hgs', hqs⟩ := exists_gaps ps
    have hzero : (pieceText gs').length = 0 := by
      have hblank := blankLength_gaps hgs hgaps
      rw [← hw, hlen, hr, blankLength_pieces hgs' hqs hchain] at hblank
      omega
    have hafter : blankLength (r ++ '\n' :: z) = 0 := by
      rw [hr, List.append_assoc, List.cons_append,
        blankLength_pieces hgs' hqs (hchain.point undigited_append_break), hzero]
    have hgaps' : Chain gs (r ++ '\n' :: z) := by
      refine hgaps.congr ?_ pointless_append_break
      rw [hr]
      cases pieceText (gs' ++ qs) <;> rfl
    rw [hlen, hw, List.append_assoc, blankLength_gaps hgs hgaps', hafter, Nat.add_zero]

/-- A first item stays as it is when more text follows, and leaves the text after it with the text
that follows. -/
theorem nextStatement_append_break {c' : Cursor} {i : Item} {z : List Char}
    (h : nextStatement c = some (.item i, c')) (hrest : d.rest = c.rest ++ '\n' :: z)
    (hplace : d.place = c.place) :
    ∃ d', nextStatement d = some (.item i, d') ∧ d'.rest = c'.rest ++ '\n' :: z ∧
      d'.place = c'.place ∧ c'.stop = c.stop := by
  rw [nextStatement_eq] at h
  obtain ⟨hitem, hnone⟩ := item_of_statement h
  obtain ⟨hstop, ps, hpieces, hchain⟩ := exists_pieces_of_item hitem
  have hchain' : Chain ps ('.' :: (c'.rest ++ '\n' :: z)) := hchain.point undigited_append_break
  have hle : blankLength c.rest ≤ c.rest.length := by
    by_contra hlt
    have hnil : (c.advance (blankLength c.rest)).rest = [] := List.drop_eq_nil_of_le (by omega)
    rw [hnil] at hpieces
    simp at hpieces
  have hadvance : (d.advance (blankLength c.rest)).rest =
      (c.advance (blankLength c.rest)).rest ++ '\n' :: z := by
    simp [Cursor.advance, hrest, List.drop_append_of_le_length, hle]
  have hblank : blankLength d.rest = blankLength c.rest := by
    rw [hrest]
    exact blankLength_append_statement hpieces hchain
  have htailed : Tailed c'.rest (c'.rest ++ '\n' :: z)
      { c.advance (blankLength c.rest) with oversized? := none }
      { d.advance (blankLength c.rest) with oversized? := none } := by
    refine ⟨?_, rfl, ps, hpieces, ?_, hchain, hchain'⟩
    · simp [Cursor.advance, hplace, hrest, List.take_append_of_le_length, hle]
    · simp [hadvance, show (c.advance (blankLength c.rest)).rest = _ from hpieces]
  have hrel := item_tailed htailed
  rw [hitem] at hrel
  obtain ⟨x, hx, hval, hplace', hoversized, _, hrest'⟩ := rel_some_left hrel
  refine ⟨x.2, ?_, hrest', hplace', hstop.trans (c.stop_advance _)⟩
  rw [nextStatement_eq, hblank]
  exact statement_of_item (hx.trans (congrArg some (Prod.ext hval rfl))) (hoversized.trans hnone)

/-- A text in which all statements are items can be followed by any other, after a line break. -/
theorem statementsAt_append_break {z : List Char} (hrest : d.rest = c.rest ++ '\n' :: z)
    (hplace : d.place = c.place) (hitems : ∀ s ∈ statementsAt c, ∃ i, s = .item i) :
    statementsAt d = statementsAt c ++ statementsAt { rest := z, place := c.stop.next '\n' } := by
  induction hn : c.rest.length using Nat.strongRecOn generalizing c d with
  | ind n ih =>
    cases hnext : nextStatement c with
    | none =>
      have hblank : c.rest.length ≤ blankLength c.rest := by
        by_contra hlt
        obtain ⟨s, c', hs⟩ :=
          exists_statement (c := c.advance (blankLength c.rest)) (by simp [Cursor.advance]; omega)
        rw [nextStatement_eq, hs] at hnext
        cases hnext
      have hd : blankLength d.rest = c.rest.length + 1 +
          blankLength (d.rest.drop (c.rest.length + 1)) := by
        rw [hrest, blankLength_append_break hblank]
        simp [blankLength]
        omega
      rw [statementsAt_of_none hnext, List.nil_append, ← statementsAt_advance hd]
      refine statementsAt_eq ?_ ?_
      · simp [Cursor.advance, hrest]
      · have htake : d.rest.take (c.rest.length + 1) = c.rest ++ ['\n'] := by
          simp [hrest, List.take_append, List.take_of_length_le]
        simp [Cursor.advance, htake, hplace, Cursor.stop]
    | some x =>
      rw [statementsAt_of_some hnext] at hitems
      obtain ⟨i, hi⟩ := hitems x.1 (by simp)
      have hitem : nextStatement c = some (.item i, x.2) := by rw [hnext, ← hi]
      obtain ⟨d', hd, hrest', hplace', hstop⟩ := nextStatement_append_break hitem hrest hplace
      have hlen := length_of_nextStatement hitem
      have hmore := ih _ (by omega) hrest' hplace' (fun s hs => hitems s (by simp [hs])) rfl
      rw [statementsAt_of_some hitem, statementsAt_of_some hd, hmore, hstop]
      rfl

theorem exists_item_of_diagnostic? {s : Statement} (h : s.diagnostic? = none) :
    ∃ i, s = .item i := by
  cases s with
  | item i => exact ⟨i, rfl⟩
  | oversized _ _ => cases h
  | malformed _ _ => cases h

theorem parse_eq_ok (h : parse text = .ok script) :
    (statements text).filterMap Statement.diagnostic? = [] ∧
      script.items = (statements text).filterMap Statement.item? := by
  unfold parse at h
  simp only at h
  split at h
  next hnil =>
    cases h
    exact ⟨hnil, rfl⟩
  next => cases h

theorem eq_map_item {ss : List Statement} (h : ss.filterMap Statement.diagnostic? = []) :
    ss = (ss.filterMap Statement.item?).map .item := by
  induction ss with
  | nil => rfl
  | cons s ss ih =>
    rw [List.filterMap_eq_nil_iff] at h
    obtain ⟨i, rfl⟩ := exists_item_of_diagnostic? (h s List.mem_cons_self)
    have hss := ih (List.filterMap_eq_nil_iff.mpr fun t ht => h t (List.mem_cons_of_mem _ ht))
    exact congrArg (Statement.item i :: ·) hss

theorem parse_eq_ok_iff : parse text = .ok script ↔ statements text = script.items.map .item := by
  constructor
  · intro h
    obtain ⟨hnone, hitems⟩ := parse_eq_ok h
    rw [hitems]
    exact eq_map_item hnone
  · intro h
    have hnone : (statements text).filterMap Statement.diagnostic? = [] := by
      rw [h, List.filterMap_map, List.filterMap_eq_nil_iff]
      exact fun _ _ => rfl
    have hitems : (statements text).filterMap Statement.item? = script.items := by
      rw [h, List.filterMap_map]
      exact List.filterMap_some
    simp [parse, hnone, hitems]

theorem parse_eq_error (h : parse text = .error ds) :
    (statements text).filterMap Statement.diagnostic? = ds ∧ ds ≠ [] := by
  unfold parse at h
  simp only at h
  split at h
  next => cases h
  next hne =>
    cases h
    exact ⟨rfl, hne⟩

theorem parse_of_nil (h : (statements text).filterMap Statement.diagnostic? = []) :
    parse text = .ok ⟨(statements text).filterMap Statement.item?⟩ := by
  simp [parse, h]

theorem parse_of_ne_nil (h : (statements text).filterMap Statement.diagnostic? = ds)
    (hne : ds ≠ []) : parse text = .error ds := by
  cases ds with
  | nil => exact (hne rfl).elim
  | cons d ds => simp [parse, h]

theorem filterMap_item?_moved (f : Span → Span) (ss : List Statement) :
    (ss.map (Statement.mapSpan f)).filterMap Statement.item? =
      (ss.filterMap Statement.item?).map (Item.mapSpan f) := by
  rw [List.filterMap_map, List.map_filterMap]
  congr
  funext s
  cases s <;> rfl

theorem filterMap_diagnostic?_moved (f : Span → Span) (ss : List Statement) :
    (ss.map (Statement.mapSpan f)).filterMap Statement.diagnostic? =
      (ss.filterMap Statement.diagnostic?).map (Diagnostic.mapSpan f) := by
  rw [List.filterMap_map, List.map_filterMap]
  congr
  funext s
  cases s <;> rfl

theorem statementsAt_after (s t : String) :
    statementsAt { rest := t.toList, place := ({ rest := s.toList : Cursor }).stop.next '\n' } =
      (statements t).map (Statement.mapSpan (Span.shift (.after (s ++ "\n")))) := by
  rw [statements_eq]
  refine statementsAt_moved ⟨rfl, ?_⟩
  have hplace := Place.foldl_next_break s.toList
  rw [List.foldl_append] at hplace
  have htext : String.ofList (s.toList ++ ['\n']) = s ++ "\n" := by
    apply String.toList_injective
    simp
  rw [htext] at hplace
  exact hplace

theorem parse_concatenation {s₁ : String} {script₁ : Script} (h₁ : parse s₁ = .ok script₁)
    (s₂ : String) :
    (∀ script₂, parse s₂ = .ok script₂ → parse (s₁ ++ "\n" ++ s₂) =
      .ok ⟨script₁.items ++ script₂.items.map (Item.mapSpan (Span.shift (.after (s₁ ++ "\n"))))⟩) ∧
    (∀ ds, parse s₂ = .error ds → parse (s₁ ++ "\n" ++ s₂) =
      .error (ds.map (Diagnostic.mapSpan (Span.shift (.after (s₁ ++ "\n")))))) := by
  obtain ⟨hnone, hitems₁⟩ := parse_eq_ok h₁
  have hstatements : statements (s₁ ++ "\n" ++ s₂) =
      statements s₁ ++ (statements s₂).map
        (Statement.mapSpan (Span.shift (.after (s₁ ++ "\n")))) := by
    rw [← statementsAt_after, statements_eq, statements_eq]
    refine statementsAt_append_break (by simp) rfl fun s hs => exists_item_of_diagnostic? ?_
    exact List.filterMap_eq_nil_iff.mp hnone s hs
  have hdiagnostics : (statements (s₁ ++ "\n" ++ s₂)).filterMap Statement.diagnostic? =
      ((statements s₂).filterMap Statement.diagnostic?).map
        (Diagnostic.mapSpan (Span.shift (.after (s₁ ++ "\n")))) := by
    rw [hstatements, List.filterMap_append, hnone, List.nil_append, filterMap_diagnostic?_moved]
  refine ⟨fun script₂ h₂ => ?_, fun ds h₂ => ?_⟩
  · obtain ⟨hnone₂, hitems₂⟩ := parse_eq_ok h₂
    rw [hnone₂] at hdiagnostics
    rw [parse_of_nil hdiagnostics, hstatements, List.filterMap_append,
      filterMap_item?_moved, hitems₁, hitems₂]
  · obtain ⟨hds, hne⟩ := parse_eq_error h₂
    rw [hds] at hdiagnostics
    exact parse_of_ne_nil hdiagnostics (by simpa using hne)

theorem exists_script (text : String) (h : (statements text).all fun s => s.diagnostic?.isNone) :
    ∃ script, parse text = .ok script := by
  refine ⟨_, parse_of_nil ?_⟩
  simpa [List.filterMap_eq_nil_iff] using h

theorem parse_concatenation_comment : ∃ script₁ script₂,
    parse "p(a). // last line" = .ok script₁ ∧ parse "p(X) -> q(X)." = .ok script₂ ∧
      parse ("p(a). // last line" ++ "\n" ++ "p(X) -> q(X).") =
        .ok ⟨script₁.items ++ script₂.items.map (Item.mapSpan (Span.shift ⟨19, 1⟩))⟩ := by
  obtain ⟨script₁, h₁⟩ := exists_script "p(a). // last line" (by decide +kernel)
  obtain ⟨script₂, h₂⟩ := exists_script "p(X) -> q(X)." (by decide +kernel)
  exact ⟨script₁, script₂, h₁, h₂, (parse_concatenation h₁ _).1 script₂ h₂⟩

end GraphRules.Script
