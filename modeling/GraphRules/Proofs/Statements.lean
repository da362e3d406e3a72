import GraphRules.Proofs.Pieces

/-! Statements one after another. An item ends at its point and depends on nothing after it; a text
that is moved gives the same statements with their spans moved; and the statements of a script are
those of what is left after the first. -/
namespace GraphRules.Script

def Cursor.stop (c : Cursor) : Place := c.rest.foldl Place.next c.place

theorem Cursor.stop_advance (c : Cursor) (n : Nat) : (c.advance n).stop = c.stop := by
  simp only [Cursor.stop, Cursor.advance, ← List.foldl_append, List.take_append_drop]

theorem Cursor.advance_advance (c : Cursor) (n m : Nat) :
    (c.advance n).advance m = c.advance (n + m) := by
  simp only [Cursor.advance, List.drop_drop, ← List.foldl_append, List.take_add]

theorem Cursor.offset_advance (c : Cursor) (n : Nat) :
    c.place.offset ≤ (c.advance n).place.offset := by
  rw [Cursor.advance, Place.foldl_next_offset]
  exact Nat.le_add_right ..

def Lexed (start c d : Cursor) : Prop :=
  d = c ∧ c.stop = start.stop ∧
    (c.rest = [] ∨ ∃ ps, start.rest = pieceText ps ++ c.rest ∧ Chain ps c.rest)

section Lexed

variable {start : Cursor}

theorem Lexed.advance {c : Cursor} {qs : List Piece} {r : List Char} (h : Lexed start c c)
    (hrest : c.rest = pieceText qs ++ r) (hqs : Chain qs r) :
    Lexed start (c.advance (pieceText qs).length) (c.advance (pieceText qs).length) := by
  have hr : (c.advance (pieceText qs).length).rest = r := by simp [Cursor.advance, hrest]
  refine ⟨rfl, (c.stop_advance _).trans h.2.1, ?_⟩
  rw [hr]
  rcases h.2.2 with hnil | ⟨ps, htext, hps⟩
  · rw [hnil] at hrest
    exact .inl (List.append_eq_nil_iff.mp hrest.symm).2
  · rw [hrest] at htext hps
    exact .inr ⟨ps ++ qs, by simpa using htext, hps.append hqs⟩

theorem moves_lexed {m : Scan α} (hm : Tokenwise m) : Moves (Lexed start) (Lexed start) m := by
  rintro c d hcd
  obtain rfl := hcd.1
  refine ⟨rfl, fun x hx => ?_⟩
  obtain ⟨t, r, hrest, ht, hr, hlen⟩ := hm.found _ _ hx
  have hchain : Chain [.token t] r := ⟨ht, hr, trivial⟩
  have hadvance := hcd.advance (by simpa [Piece.text] using hrest) hchain
  simpa [Piece.text, ← hlen] using hadvance

theorem moves_lexed_blank : Moves (Lexed start) (Lexed start) blankScan := by
  rintro c d hcd
  obtain rfl := hcd.1
  refine ⟨rfl, fun x hx => ?_⟩
  cases hx
  rcases gapsAt_blankLength d.rest with hlen | ⟨gs, r, hrest, _, hchain, hlen⟩
  · exact ⟨rfl, (d.stop_advance _).trans hcd.2.1, .inl (by simpa [Cursor.advance] using hlen)⟩
  · rw [hlen]
    exact hcd.advance hrest hchain

theorem faithful_lexed : Faithful .none (Lexed start) where
  place := by rintro c d ⟨rfl, _⟩; rfl
  oversized := by rintro c d ⟨rfl, _⟩; simp [Span.shift_none]
  noted := by rintro c d ⟨rfl, hc⟩ o; exact ⟨by simp [Span.shift_none], hc⟩
  atBlank := moves_lexed_blank
  atName := moves_lexed tokenwise_nameScan
  atString := moves_lexed tokenwise_quotedScan
  atComparator := moves_lexed tokenwise_comparatorScan
  atArg := moves_lexed tokenwise_argScan
  atWord := fun _ hs => moves_lexed (tokenwise_wordScan hs)
  atMark := fun _ hs => moves_lexed (tokenwise_markScan hs)

def Ended (start c d : Cursor) : Prop :=
  d = c ∧ c.stop = start.stop ∧ ∃ ps, start.rest = pieceText ps ++ '.' :: c.rest ∧
    Chain ps ('.' :: c.rest)

theorem ends_lexed : Faithful.Ends .none (Lexed start) (Ended start) where
  point := by
    refine Moves.mark ?_ (by decide)
    rintro c d ⟨rfl, hstop, hd⟩
    refine ⟨rfl, fun x hx => ⟨rfl, (d.stop_advance _).trans hstop, ?_⟩⟩
    obtain ⟨r, hrest⟩ : ∃ r, d.rest = '.' :: r := by
      cases hrest : d.rest with
      | nil => simp [hrest, markScan] at hx
      | cons y ys =>
        by_cases hy : '.' = y
        · exact ⟨ys, by rw [hy]⟩
        · simp [hrest, markScan, hy] at hx
    have hadvance : (d.advance x.2).rest = r := by
      have hone : x.2 = 1 := (length_of_markScan hx).1
      simp [Cursor.advance, hrest, hone]
    rw [hadvance]
    rcases hd with hnil | hpieces
    · simp [hnil] at hrest
    · rwa [hrest] at hpieces
  place := by rintro c d ⟨rfl, _⟩; rfl

theorem exists_pieces_of_item {c c' : Cursor} {i : Item} (h : item c = some (i, c')) :
    c'.stop = c.stop ∧ ∃ ps, c.rest = pieceText ps ++ '.' :: c'.rest ∧
      Chain ps ('.' :: c'.rest) := by
  have hrel := faithful_lexed.inStep_item ends_lexed c c ⟨rfl, rfl, .inr ⟨[], rfl, trivial⟩⟩
  rw [h] at hrel
  obtain ⟨y, _, _, hended, _⟩ := rel_some_left hrel
  exact hended.2

end Lexed

def Tailed (y z : List Char) (c d : Cursor) : Prop :=
  d.place = c.place ∧ d.oversized? = c.oversized? ∧
    ∃ ps, c.rest = pieceText ps ++ '.' :: y ∧ d.rest = pieceText ps ++ '.' :: z ∧
      Chain ps ('.' :: y) ∧ Chain ps ('.' :: z)

section Tailed

variable {y z : List Char} {c d : Cursor}

theorem Tailed.advance (ps qs : List Piece) (hplace : d.place = c.place)
    (hoversized : d.oversized? = c.oversized?) (hc : c.rest = pieceText (ps ++ qs) ++ '.' :: y)
    (hd : d.rest = pieceText (ps ++ qs) ++ '.' :: z) (hy : Chain (ps ++ qs) ('.' :: y))
    (hz : Chain (ps ++ qs) ('.' :: z)) :
    Tailed y z (c.advance (pieceText ps).length) (d.advance (pieceText ps).length) := by
  refine ⟨?_, hoversized, qs, ?_, ?_, hy.right, hz.right⟩
  · simp [Cursor.advance, hc, hd, hplace]
  · simp [Cursor.advance, hc]
  · simp [Cursor.advance, hd]

theorem moves_tailed {m : Scan α} (hm : Tokenwise m) : Moves (Tailed y z) (Tailed y z) m := by
  rintro c d ⟨hplace, hoversized, ps, hc, hd, hy, hz⟩
  cases ps with
  | nil =>
    have hnone : ∀ r, m ('.' :: r) = none := fun r => hm.elsewhere (.inr rfl)
    rw [hc, hd]
    simp [hnone]
  | cons p ps =>
    cases hp : p.isGap with
    | true =>
      obtain ⟨x, xs, htext, _, hx⟩ := Piece.text_cons hy.1
      have hnone : ∀ r, m (x :: r) = none := fun r => hm.elsewhere (.inl (hx.trans hp))
      rw [hc, hd, pieceText_cons, htext]
      simp [hnone]
    | false =>
      cases p with
      | token t =>
        obtain ⟨a?, ha⟩ := hm.atToken t hy.1
        have hmc : m c.rest = a?.map (·, t.text.length) := by
          rw [hc, pieceText_cons, List.append_assoc]
          exact ha _ hy.2.1
        have hmd : m d.rest = a?.map (·, t.text.length) := by
          rw [hd, pieceText_cons, List.append_assoc]
          exact ha _ hz.2.1
        refine ⟨hmd.trans hmc.symm, fun x hx => ?_⟩
        obtain ⟨a, _, rfl⟩ := Option.map_eq_some_iff.mp (hmc.symm.trans hx)
        have hadvance := Tailed.advance [.token t] ps hplace hoversized hc hd hy hz
        simpa [Piece.text] using hadvance
      | blank _ => cases hp
      | line _ _ => cases hp
      | block _ => cases hp

theorem moves_tailed_blank : Moves (Tailed y z) (Tailed y z) blankScan := by
  rintro c d ⟨hplace, hoversized, ps, hc, hd, hy, hz⟩
  obtain ⟨gs, qs, rfl, hgs, hqs⟩ := exists_gaps ps
  have hblank : ∀ {cs r}, cs = pieceText (gs ++ qs) ++ '.' :: r → Chain (gs ++ qs) ('.' :: r) →
      blankScan cs = some ((), (pieceText gs).length) := by
    rintro cs r rfl hr
    rw [blankScan, blankLength_pieces hgs hqs hr]
  refine ⟨(hblank hd hz).trans (hblank hc hy).symm, fun x hx => ?_⟩
  cases (hblank hc hy).symm.trans hx
  exact Tailed.advance _ _ hplace hoversized hc hd hy hz

theorem faithful_tailed : Faithful .none (Tailed y z) where
  place := fun h => h.1
  oversized := fun h => by simp [Span.shift_none, h.2.1]
  noted := by
    rintro c d ⟨hplace, _, hpieces⟩ o
    exact ⟨hplace, by simp [Span.shift_none], hpieces⟩
  atBlank := moves_tailed_blank
  atName := moves_tailed tokenwise_nameScan
  atString := moves_tailed tokenwise_quotedScan
  atComparator := moves_tailed tokenwise_comparatorScan
  atArg := moves_tailed tokenwise_argScan
  atWord := fun _ hs => moves_tailed (tokenwise_wordScan hs)
  atMark := fun _ hs => moves_tailed (tokenwise_markScan hs)

def Passed (y z : List Char) (c d : Cursor) : Prop :=
  d.place = c.place ∧ d.oversized? = c.oversized? ∧ c.rest = y ∧ d.rest = z

theorem ends_tailed : Faithful.Ends .none (Tailed y z) (Passed y z) where
  point := by
    refine Moves.mark ?_ (by decide)
    rintro c d ⟨hplace, hoversized, ps, hc, hd, hy, hz⟩
    cases ps with
    | nil =>
      have hone : ∀ r, markScan "." ('.' :: r) = some ((), 1) := fun r => by simp [markScan]; rfl
      simp only [pieceText_nil, List.nil_append] at hc hd
      rw [hc, hd, hone, hone]
      refine ⟨rfl, fun x hx => ?_⟩
      cases hx
      exact ⟨by simp [Cursor.advance, hc, hd, hplace],
        hoversized, by simp [Cursor.advance, hc], by simp [Cursor.advance, hd]⟩
    | cons p ps =>
      obtain ⟨x, xs, htext, hx, _⟩ := Piece.text_cons hy.1
      have hnone : ∀ r, markScan "." (x :: r) = none := fun r => by simp [markScan, hx.symm]
      rw [hc, hd, pieceText_cons, htext]
      simp [hnone]
  place := fun h => h.1

/-- An item does not depend on what stands after its point. -/
theorem item_tailed (h : Tailed y z c d) :
    Option.Rel (fun x x' => x'.1 = x.1 ∧ Passed y z x.2 x'.2) (item c) (item d) :=
  rel_imp (faithful_tailed.inStep_item ends_tailed c d h) fun x _ hx =>
    ⟨hx.1.trans (Item.mapSpan_id x.1), hx.2.1⟩

end Tailed

theorem length_of_tokenAt {cs : List Char} {n : Nat} (h : TokenAt cs n) : 0 < n := by
  obtain ⟨t, r, rfl, ht, _, rfl⟩ := h
  obtain ⟨x, xs, htext, _⟩ := Token.text_cons ht
  simp [htext]

def stretch (cs : List Char) : Nat := malformedLength cs.length cs

section Stretch

variable {cs : List Char} {k : Nat}

theorem malformedLength_nil (n : Nat) : malformedLength n [] = 0 := by
  cases n with
  | zero => rfl
  | succ n => rfl

theorem malformedLength_string (n : Nat) (h : stringLength? cs = some k) :
    malformedLength (n + 1) cs = k + malformedLength n (cs.drop k) := by
  simp only [malformedLength, h]

theorem malformedLength_float (n : Nat) (hstring : stringLength? cs = none)
    (h : floatLength? cs = some k) :
    malformedLength (n + 1) cs = k + malformedLength n (cs.drop k) := by
  simp only [malformedLength, hstring, h]

theorem malformedLength_point (n : Nat) : malformedLength (n + 1) ('.' :: cs) = 1 := by
  have hfloat : floatLength? ('.' :: cs) = none :=
    floatLength?_none (integerLength?_none (by decide) (by decide))
  have hstring : stringLength? ('.' :: cs) = none := rfl
  simp only [malformedLength, hstring, hfloat]

theorem malformedLength_cons {x : Char} (n : Nat) (hstring : stringLength? (x :: cs) = none)
    (hfloat : floatLength? (x :: cs) = none) (hx : x ≠ '.') :
    malformedLength (n + 1) (x :: cs) = 1 + malformedLength n cs := by
  simp only [malformedLength, hstring, hfloat]

/-- The bound plays no part if there are no more characters. -/
theorem malformedLength_congr {n m : Nat} (hn : cs.length ≤ n) (hm : cs.length ≤ m) :
    malformedLength n cs = malformedLength m cs := by
  induction n generalizing m cs with
  | zero =>
    have hnil : cs = [] := List.eq_nil_of_length_eq_zero (by omega)
    rw [hnil, malformedLength_nil, malformedLength_nil]
  | succ n ih =>
    cases m with
    | zero =>
      have hnil : cs = [] := List.eq_nil_of_length_eq_zero (by omega)
      rw [hnil, malformedLength_nil, malformedLength_nil]
    | succ m =>
      have hdrop : ∀ k, 0 < k → malformedLength n (cs.drop k) = malformedLength m (cs.drop k) := by
        intro k hk
        apply ih <;> rw [List.length_drop] <;> omega
      cases hstring : stringLength? cs with
      | some k =>
        rw [malformedLength_string n hstring, malformedLength_string m hstring,
          hdrop k (length_of_tokenAt (tokenAt_of_stringLength? hstring))]
      | none =>
        cases hfloat : floatLength? cs with
        | some k =>
          rw [malformedLength_float n hstring hfloat, malformedLength_float m hstring hfloat,
            hdrop k (length_of_tokenAt (tokenAt_of_floatLength? hfloat))]
        | none =>
          cases cs with
          | nil => rw [malformedLength_nil, malformedLength_nil]
          | cons x xs =>
            by_cases hx : x = '.'
            · rw [hx, malformedLength_point, malformedLength_point]
            · have htail : malformedLength n xs = malformedLength m xs := hdrop 1 (by decide)
              rw [malformedLength_cons n hstring hfloat hx,
                malformedLength_cons m hstring hfloat hx, htail]

theorem stretch_drop {n : Nat} (hk : 0 < k) (hn : cs.length = n + 1) :
    malformedLength n (cs.drop k) = stretch (cs.drop k) :=
  malformedLength_congr (by rw [List.length_drop]; omega) (Nat.le_refl _)

theorem stretch_string (h : stringLength? cs = some k) : stretch cs = k + stretch (cs.drop k) := by
  have hk := length_of_tokenAt (tokenAt_of_stringLength? h)
  cases cs with
  | nil => cases h
  | cons x xs => rw [stretch, List.length_cons, malformedLength_string _ h, stretch_drop hk rfl]

theorem stretch_float (hstring : stringLength? cs = none) (h : floatLength? cs = some k) :
    stretch cs = k + stretch (cs.drop k) := by
  have hk := length_of_tokenAt (tokenAt_of_floatLength? h)
  cases cs with
  | nil => cases h
  | cons x xs =>
    rw [stretch, List.length_cons, malformedLength_float _ hstring h, stretch_drop hk rfl]

theorem stretch_point : stretch ('.' :: cs) = 1 := malformedLength_point _

theorem stretch_cons {x : Char} (hstring : stringLength? (x :: cs) = none)
    (hfloat : floatLength? (x :: cs) = none) (hx : x ≠ '.') :
    stretch (x :: cs) = 1 + stretch cs := malformedLength_cons _ hstring hfloat hx

end Stretch

theorem malformed_eq {c : Cursor} (h : c.rest ≠ []) :
    malformed c = some ((String.ofList (c.rest.take (stretch c.rest)),
      Span.between c.place (c.advance (stretch c.rest)).place), c.advance (stretch c.rest)) := by
  simp [malformed, spanned, taken, h, stretch]

def Moved (δ : Displacement) (c d : Cursor) : Prop := d.rest = c.rest ∧ d.place = c.place.shift δ

def Shifted (δ : Displacement) (c d : Cursor) : Prop :=
  Moved δ c d ∧ d.oversized? = c.oversized?.map (Prod.map id (Span.shift δ))

section Moved

variable {δ : Displacement}

theorem Moved.advance {c d : Cursor} (h : Moved δ c d) (n : Nat) :
    Moved δ (c.advance n) (d.advance n) := by
  obtain ⟨hrest, hplace⟩ := h
  refine ⟨?_, ?_⟩
  · simp [Cursor.advance, hrest]
  · simp [Cursor.advance, hrest, hplace, Place.foldl_next_shift]

theorem moves_shifted {m : Scan α} : Moves (Shifted δ) (Shifted δ) m := by
  rintro c d ⟨hmoved, hoversized⟩
  exact ⟨congrArg m hmoved.1, fun x _ => ⟨hmoved.advance x.2, hoversized⟩⟩

theorem faithful_shifted : Faithful δ (Shifted δ) where
  place := fun h => h.1.2
  oversized := fun h => h.2
  noted := fun h _ => ⟨h.1, rfl⟩
  atBlank := moves_shifted
  atName := moves_shifted
  atString := moves_shifted
  atComparator := moves_shifted
  atArg := moves_shifted
  atWord := fun _ _ => moves_shifted
  atMark := fun _ _ => moves_shifted

theorem ends_shifted : Faithful.Ends δ (Shifted δ) (Shifted δ) where
  point := moves_shifted.mark (by decide)
  place := fun h => h.1.2

theorem malformedLength_pos {cs : List Char} (h : cs ≠ []) (n : Nat) :
    0 < malformedLength (n + 1) cs := by
  unfold malformedLength
  split
  next k hk =>
    have := length_of_tokenAt (tokenAt_of_stringLength? hk)
    omega
  next =>
    split
    next k hk =>
      have := length_of_tokenAt (tokenAt_of_floatLength? hk)
      omega
    next =>
      split
      next => exact (h rfl).elim
      next => omega
      next => omega

theorem inStep_malformed :
    InStep 1 (Moved δ) (Moved δ) (Prod.map id (Span.shift δ)) malformed malformed := by
  refine InStep.spanned (fun h => h.2) (fun h => h.2) ?_
  intro c d h
  rw [taken_eq]
  unfold scanned textScan
  rw [h.1]
  cases hrest : c.rest with
  | nil => exact .none
  | cons x xs =>
    have hpos := malformedLength_pos (List.cons_ne_nil x xs) xs.length
    refine .some ⟨rfl, h.advance _, ?_, ?_⟩
    · simp only [Cursor.length_advance, hrest, List.length_cons] at *
      omega
    · simp only [Cursor.length_advance, h.1, hrest, List.length_cons] at *
      omega

theorem inStep_statement :
    InStep 1 (Moved δ) (Moved δ) (Statement.mapSpan (Span.shift δ)) statement statement := by
  intro c d h
  have hitem :=
    faithful_shifted.inStep_item ends_shifted { c with oversized? := none }
      { d with oversized? := none }
    ⟨h, rfl⟩
  have hmalformed := inStep_malformed c d h
  unfold statement
  generalize item { c with oversized? := none } = x at hitem
  generalize item { d with oversized? := none } = x' at hitem
  cases hitem with
  | none =>
    generalize malformed c = y at hmalformed
    generalize malformed d = y' at hmalformed
    cases hmalformed with
    | none => exact .none
    | some hy => exact .some ⟨by simp only [hy.1]; rfl, hy.2⟩
  | @some x x' hx =>
    obtain ⟨hval, ⟨hmoved, hoversized⟩, hlen⟩ := hx
    simp only [hoversized]
    cases x.2.oversized? with
    | none => exact .some ⟨by rw [hval]; rfl, hmoved, hlen⟩
    | some o => exact .some ⟨rfl, hmoved, hlen⟩

def nextStatement : Reader Statement := blanks *> statement

theorem inStep_nextStatement :
    InStep 1 (Moved δ) (Moved δ) (Statement.mapSpan (Span.shift δ))
      nextStatement nextStatement := by
  have hblanks : Moves (Moved δ) (Moved δ) blankScan :=
    fun c d h => ⟨congrArg blankScan h.1, fun x _ => h.advance x.2⟩
  exact hblanks.inStep.bind fun _ => inStep_statement

end Moved

def statementsAt (c : Cursor) : List Statement :=
  match many nextStatement c with
  | some (ss, _) => ss
  | none => []

theorem statements_eq (text : String) : statements text = statementsAt { rest := text.toList } :=
  rfl

section Loop

variable {c c' : Cursor} {s : Statement}

theorem length_of_nextStatement (h : nextStatement c = some (s, c')) :
    c'.rest.length < c.rest.length := by
  have hrel := inStep_nextStatement (δ := .none) c c ⟨rfl, rfl⟩
  rw [h] at hrel
  obtain ⟨_, _, _, _, hlen, _⟩ := rel_some_left hrel
  exact hlen

/-- The bound of a repetition plays no part if there are no more characters. -/
theorem several_nextStatement (n : Nat) (h : c.rest.length ≤ n) :
    several nextStatement n c = many nextStatement c := by
  have hstep : InStep 1 (fun c d => d = c) (fun c d => d = c) id nextStatement nextStatement := by
    rintro c d rfl
    cases hnext : nextStatement d with
    | none => exact .none
    | some x =>
      obtain ⟨s, d'⟩ := x
      have hlen := length_of_nextStatement hnext
      exact .some ⟨rfl, rfl, hlen, hlen⟩
  have hrel := hstep.several c.rest.length n rfl (Nat.le_refl _) h
  unfold many
  generalize several nextStatement c.rest.length c = r at hrel
  generalize several nextStatement n c = r' at hrel
  cases hrel with
  | none => rfl
  | some hxy => exact congrArg some (Prod.ext (hxy.1.trans (List.map_id _)) hxy.2.1)

theorem many_nextStatement : ∃ ss c', many nextStatement c = some (ss, c') := by
  have hall : ∀ n (c : Cursor), ∃ ss c', several nextStatement n c = some (ss, c') := by
    intro n
    induction n with
    | zero => exact fun c => ⟨[], c, rfl⟩
    | succ n ih =>
      intro c
      cases hnext : nextStatement c with
      | none => exact ⟨[], c, several_of_none hnext _⟩
      | some x =>
        obtain ⟨ss, c', hss⟩ := ih x.2
        exact ⟨x.1 :: ss, c', by simp [several, hnext, hss]⟩
  exact hall _ c

theorem statementsAt_of_none (h : nextStatement c = none) : statementsAt c = [] := by
  simp [statementsAt, many, several_of_none h]

theorem statementsAt_of_some (h : nextStatement c = some (s, c')) :
    statementsAt c = s :: statementsAt c' := by
  have hlen := length_of_nextStatement h
  obtain ⟨n, hn⟩ : ∃ n, c.rest.length = n + 1 := ⟨c.rest.length - 1, by omega⟩
  obtain ⟨ss, c'', hss⟩ := many_nextStatement (c := c')
  have hmore : several nextStatement n c' = some (ss, c'') :=
    (several_nextStatement n (by omega)).trans hss
  unfold statementsAt
  rw [hss]
  simp [many, hn, several, h, hmore]

theorem statementsAt_moved {δ : Displacement} {d : Cursor} (h : Moved δ c d) :
    statementsAt d = (statementsAt c).map (Statement.mapSpan (Span.shift δ)) := by
  have hrel := inStep_nextStatement.many c d h
  obtain ⟨ss, c', hss⟩ := many_nextStatement (c := c)
  rw [hss] at hrel
  obtain ⟨x, hx, hval, _⟩ := rel_some_left hrel
  simp [statementsAt, hss, hx, hval]

theorem nextStatement_eq (c : Cursor) :
    nextStatement c = statement (c.advance (blankLength c.rest)) := rfl

theorem statement_nil (h : c.rest = []) : statement c = none := by
  have hrel := inStep_statement (δ := .none) c c ⟨rfl, rfl⟩
  cases hs : statement c with
  | none => rfl
  | some x =>
    rw [hs] at hrel
    obtain ⟨_, _, _, _, hlen, _⟩ := rel_some_left hrel
    simp [h] at hlen

theorem exists_statement (h : c.rest ≠ []) : ∃ s c', statement c = some (s, c') := by
  unfold statement
  cases item { c with oversized? := none } with
  | some x => cases hx : x.2.oversized? <;> simp [hx]
  | none =>
    obtain ⟨x, xs, hrest⟩ := List.exists_cons_of_ne_nil h
    simp [malformed, spanned, taken, hrest]

theorem item_of_statement {i : Item} (h : statement c = some (.item i, c')) :
    item { c with oversized? := none } = some (i, c') ∧ c'.oversized? = none := by
  unfold statement at h
  split at h
  next i' c'' hitem =>
    split at h
    next => simp at h
    next hnone =>
      cases h
      exact ⟨hitem, hnone⟩
  next =>
    split at h
    next => simp at h
    next => cases h

theorem statement_of_item {i : Item} (h : item { c with oversized? := none } = some (i, c'))
    (hnone : c'.oversized? = none) : statement c = some (.item i, c') := by
  simp [statement, h, hnone]

theorem statementsAt_congr {d : Cursor} (h : nextStatement d = nextStatement c) :
    statementsAt d = statementsAt c := by
  cases hnext : nextStatement c with
  | none => rw [statementsAt_of_none hnext, statementsAt_of_none (h.trans hnext)]
  | some x => rw [statementsAt_of_some hnext, statementsAt_of_some (h.trans hnext)]

theorem statementsAt_advance {n : Nat} (h : blankLength c.rest = n + blankLength (c.rest.drop n)) :
    statementsAt (c.advance n) = statementsAt c := by
  apply statementsAt_congr
  have hrest : (c.advance n).rest = c.rest.drop n := rfl
  rw [nextStatement_eq, nextStatement_eq, h, hrest, Cursor.advance_advance]

end Loop

end GraphRules.Script
