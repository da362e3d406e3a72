import GraphRules.Proofs.Concatenation

/-! Recovery from malformed statements. A malformed statement made of tokens costs one diagnostic
and takes nothing of what follows with it, as long as points in its comments are in numbers, and
quotes in strings: the search for the end of a malformed statement knows strings and numbers, but no
comments. -/
namespace GraphRules.Script

section Plain

variable {u v r ds : List Char}

theorem isDigit_of_mem_number (negative : Bool) (h : isDigits ds) :
    (∀ x ∈ minus negative ++ ds, x.isDigit ∨ x = '-') ∧
      ∀ x ∈ (minus negative ++ ds).tail, x.isDigit := by
  simp only [isDigits, Bool.and_eq_true, List.all_eq_true] at h
  cases negative with
  | true => simp_all [minus]
  | false => exact ⟨fun x hx => .inl (h.2 x hx), fun x hx => h.2 x (List.mem_of_mem_tail hx)⟩

def isFigure (x : Char) : Bool := x.isDigit || x = '-' || x = '.'

/-- A number with a point is written in such signs. Only the first is a minus, and behind the point
is a digit. -/
theorem mem_float (negative : Bool) {es : List Char} (hds : isDigits ds) (hes : isDigits es) :
    (∀ x ∈ minus negative ++ ds ++ '.' :: es, isFigure x) ∧
      (∀ x ∈ (minus negative ++ ds ++ '.' :: es).tail, x.isDigit ∨ x = '.') ∧
      ∀ v w, minus negative ++ ds ++ '.' :: es = v ++ '.' :: w → ¬ Undigited w := by
  obtain ⟨hsigned, hdigits⟩ := isDigit_of_mem_number negative hds
  have hmore : ∀ x ∈ es, x.isDigit := by simp_all [isDigits]
  have hne : minus negative ++ ds ≠ [] := by
    obtain ⟨d, ds, rfl, -⟩ := isDigits_cons hds
    simp
  refine ⟨fun x hx => ?_, fun x hx => ?_, fun v w heq => ?_⟩
  · rcases List.mem_append.mp hx with hx | hx
    · rcases hsigned x hx with hx | hx <;> simp [isFigure, hx]
    · rcases List.mem_cons.mp hx with hx | hx
      · simp [isFigure, hx]
      · simp [isFigure, hmore x hx]
  · rw [List.tail_append_of_ne_nil hne] at hx
    rcases List.mem_append.mp hx with hx | hx
    · exact .inl (hdigits x hx)
    · exact (List.mem_cons.mp hx).symm.imp_left (hmore x)
  · obtain rfl : es = w := by
      rcases List.append_eq_append_iff.mp heq with ⟨a, ha, hrest⟩ | ⟨a, ha, hrest⟩
      · cases a with
        | nil => exact (List.cons.inj hrest).2
        | cons y a =>
          obtain ⟨rfl, rfl⟩ := List.cons.inj hrest
          exact absurd (hmore '.' (by simp)) (by decide)
      · cases a with
        | nil => exact (List.cons.inj hrest).2.symm
        | cons y a =>
          obtain ⟨rfl, -⟩ := List.cons.inj hrest
          exact absurd (hsigned '.' (by simp [ha])) (by decide)
    obtain ⟨e, es, rfl, he⟩ := isDigits_cons hes
    intro hundigited
    have := hundigited e rfl
    simp [he] at this

theorem undigited_of_append (h : Undigited (u ++ r)) : Undigited u := by
  cases u with
  | nil => simp [Undigited]
  | cons x u => exact h

/-- No number begins in a text and ends behind it, unless digits or a fraction follow. -/
theorem floatLength?_append_none (hv : floatLength? v = none) (hne : v ≠ [])
    (hr : Undigited r ∧ Pointless r ∨ ∀ x ∈ v.getLast?, isFigure x = false) :
    floatLength? (v ++ r) = none := by
  cases h : floatLength? (v ++ r) with
  | none => rfl
  | some n =>
    obtain ⟨negative, ds, es, r', heq, hds, hes, hr', _⟩ := floatLength?_eq_some h
    obtain ⟨hsigns, htail, hpoint⟩ := mem_float negative hds hes
    have hinside : ∀ w, v = minus negative ++ ds ++ '.' :: es ++ w → Undigited w → False := by
      rintro w rfl hw
      rw [floatLength?_append negative hds hes hw] at hv
      cases hv
    rcases List.append_eq_append_iff.mp heq with ⟨w, hw, hrest⟩ | ⟨w, hw, hrest⟩
    · rcases hr with ⟨hundigited, hpointless⟩ | hlast
      · cases w with
        | nil => exact (hinside [] (by simpa using hw.symm) (by simp [Undigited])).elim
        | cons y w =>
          obtain ⟨x, xs, rfl⟩ := List.exists_cons_of_ne_nil hne
          rcases htail y (by simp [hw]) with hy | rfl
          · have := hundigited y (by simp [hrest])
            simp [hy] at this
          · exact (hpoint _ w hw (undigited_of_append (hpointless _ hrest))).elim
      · have hsign :=
          hsigns (v.getLast hne) (by rw [hw]; exact List.mem_append_left _ (List.getLast_mem _))
        rw [hlast _ (List.getLast?_eq_some_getLast hne)] at hsign
        cases hsign
    · exact (hinside w hw (undigited_of_append (hrest ▸ hr'))).elim

theorem undigited_behind_float {negative : Bool} {es : List Char} (hds : isDigits ds)
    (hes : isDigits es) (hu : Undigited u) (hr : Undigited r ∧ Pointless r ∨
      ∀ x ∈ (minus negative ++ ds ++ '.' :: es ++ u).getLast?, isFigure x = false) :
    Undigited (u ++ r) := by
  cases u with
  | cons y u => exact hu
  | nil =>
    rcases hr with ⟨hr, -⟩ | hlast
    · exact hr
    · rw [List.append_nil] at hlast
      have hne : minus negative ++ ds ++ '.' :: es ≠ [] := by simp
      have hsign := (mem_float negative hds hes).1 _ (List.getLast_mem hne)
      rw [hlast _ (List.getLast?_eq_some_getLast hne)] at hsign
      cases hsign

end Plain

theorem stretch_quoted {inner : List Char} (h : isInner inner) (r : List Char) :
    stretch ((Token.quoted inner).text ++ r) = (Token.quoted inner).text.length + stretch r := by
  rw [stretch_string (Token.stringLength?_text h), List.drop_left]

theorem stretch_fraction (negative : Bool) {ds es r : List Char} (hds : isDigits ds)
    (hes : isDigits es) (hr : Undigited r) :
    stretch ((Token.float negative ds es).text ++ r) =
      (Token.float negative ds es).text.length + stretch r := by
  obtain ⟨x, xs, htext, hx⟩ := Token.starts_minus negative hds ('.' :: es)
  have hquote : x ≠ '"' := by
    rintro rfl
    revert hx
    decide
  have hstring : stringLength? ((Token.float negative ds es).text ++ r) = none := by
    rw [Token.text, htext]
    exact stringLength?_none hquote
  rw [stretch_float hstring (Token.floatLength?_text negative hds hes hr), List.drop_left]

/-- A text that the search for the end of a malformed statement passes over: points are in numbers
only, and quotes in strings that are closed in the text. -/
def isPassed : Nat → List Char → Bool
  | _, [] => true
  | 0, _ :: _ => false
  | n + 1, x :: cs =>
    match stringLength? (x :: cs) with
    | some k => isPassed n ((x :: cs).drop k)
    | none =>
      match floatLength? (x :: cs) with
      | some k => isPassed n ((x :: cs).drop k)
      | none => decide (x ≠ '.' ∧ x ≠ '"') && isPassed n cs

section Passed

variable {u r : List Char}

theorem stretch_passed {n : Nat} (hu : isPassed n u)
    (hr : Undigited r ∧ Pointless r ∨ ∀ x ∈ u.getLast?, isFigure x = false) :
    stretch (u ++ r) = u.length + stretch r := by
  induction n generalizing u with
  | zero =>
    cases u with
    | nil => simp
    | cons x u => cases hu
  | succ n ih =>
    cases u with
    | nil => simp
    | cons x u =>
      rw [isPassed] at hu
      -- a string, a number or a single sign is passed, and then the rest
      have hmore : ∀ v w, x :: u = v ++ w → isPassed n w →
          stretch (v ++ (w ++ r)) = v.length + stretch (w ++ r) →
          stretch (x :: u ++ r) = (x :: u).length + stretch r := by
        intro v w heq hw hv
        have hr' : Undigited r ∧ Pointless r ∨ ∀ y ∈ w.getLast?, isFigure y = false :=
          hr.imp_right fun h y hy => h y (by rw [heq, List.getLast?_append, hy]; rfl)
        rw [heq, List.append_assoc, hv, ih hw hr', List.length_append, Nat.add_assoc]
      cases hstring : stringLength? (x :: u) with
      | some k =>
        rw [hstring] at hu
        obtain ⟨inner, w, heq, hinner, hk⟩ := stringLength?_eq_some hstring
        have htext : x :: u = (Token.quoted inner).text ++ w := by simp [heq, Token.text]
        have hlen : k = (Token.quoted inner).text.length := by simp [hk, Token.text]
        dsimp only at hu
        rw [htext, hlen, List.drop_left] at hu
        exact hmore _ w htext hu (stretch_quoted hinner _)
      | none =>
        rw [hstring] at hu
        dsimp only at hu
        cases hfloat : floatLength? (x :: u) with
        | some k =>
          rw [hfloat] at hu
          obtain ⟨negative, ds, es, w, heq, hds, hes, hundigited, hk⟩ := floatLength?_eq_some hfloat
          have htext : x :: u = (Token.float negative ds es).text ++ w := heq
          have hlen : k = (Token.float negative ds es).text.length := by
            rw [hk, Token.text]
            simp only [List.length_append, List.length_cons]
            omega
          have hfree : Undigited (w ++ r) := undigited_behind_float hds hes hundigited (heq ▸ hr)
          dsimp only at hu
          rw [htext, hlen, List.drop_left] at hu
          exact hmore _ w htext hu (stretch_fraction negative hds hes hfree)
        | none =>
          rw [hfloat, Bool.and_eq_true, decide_eq_true_eq] at hu
          obtain ⟨⟨hpoint, hquote⟩, hu⟩ := hu
          have hfloat' := floatLength?_append_none hfloat (by simp) hr
          exact hmore [x] u rfl hu (stretch_cons (stringLength?_none hquote) hfloat' hpoint)

theorem stretch_plain (hu : ∀ x ∈ u, x ≠ '.' ∧ x ≠ '"')
    (hr : Undigited r ∧ Pointless r ∨ ∀ x ∈ u.getLast?, isFigure x = false) :
    stretch (u ++ r) = u.length + stretch r := by
  refine stretch_passed (n := u.length) ?_ hr
  clear hr
  induction u with
  | nil => rfl
  | cons x u ih =>
    have hfloat : floatLength? (x :: u) = none := by
      cases h : floatLength? (x :: u) with
      | none => rfl
      | some n =>
        obtain ⟨negative, ds, es, r', heq, -⟩ := floatLength?_eq_some h
        exact absurd rfl (hu '.' (by simp [heq])).1
    obtain ⟨hx, hu⟩ := List.forall_mem_cons.mp hu
    rw [List.length_cons, isPassed, stringLength?_none hx.2, hfloat,
      Bool.and_eq_true, decide_eq_true_eq]
    exact ⟨hx, ih hu⟩

end Passed

def Piece.isQuiet : Piece → Bool
  | .line _ inner => isPassed inner.length inner
  | .block inner => isPassed inner.length inner
  | _ => true

section Pieces

variable {p : Piece} {ps : List Piece} {t : Token} {r : List Char}

theorem isNameChar_plain {x : Char} (h : isNameChar x) : x ≠ '.' ∧ x ≠ '"' := by
  constructor <;> rintro rfl <;> revert h <;> decide

theorem isWordStart_plain {x : Char} (h : isWordStart x) : x ≠ '.' ∧ x ≠ '"' := by
  constructor <;> rintro rfl <;> revert h <;> decide

theorem undigited_of_closed (h : Closed r) : Undigited r := by
  intro x hx
  cases hd : x.isDigit with
  | false => rfl
  | true => simpa [isNameChar_of_isDigit hd] using h x hx

theorem stretch_token (ht : t.isSpelled) (hapart : t.Apart r) (hr : Pointless r) :
    stretch (t.text ++ r) = t.text.length + stretch r := by
  cases t with
  | word c cs =>
    simp only [Token.isSpelled, Bool.and_eq_true, List.all_eq_true] at ht
    refine stretch_plain (fun x hx => ?_) (.inl ⟨undigited_of_closed hapart, hr⟩)
    rcases List.mem_cons.mp hx with rfl | hx
    · exact isWordStart_plain ht.1
    · exact isNameChar_plain (ht.2 x hx)
  | integer negative ds =>
    refine stretch_plain (fun x hx => ?_) (.inl hapart)
    rcases (isDigit_of_mem_number negative ht).1 x hx with hd | rfl
    · exact isNameChar_plain (isNameChar_of_isDigit hd)
    · decide
  | float negative ds es =>
    simp only [Token.isSpelled, Bool.and_eq_true] at ht
    exact stretch_fraction negative ht.1 ht.2 hapart
  | quoted inner => exact stretch_quoted ht r
  | mark s =>
    have hmarks : ∀ s ∈ marks ++ comparators, s.toList.all (fun x => x ≠ '.' && x ≠ '"') ∧
        s.toList.getLast?.all (fun x => !isFigure x) := by decide
    obtain ⟨hplain, hlast⟩ := hmarks s (of_decide_eq_true ht)
    exact stretch_plain (by simpa [Token.text] using hplain)
      (.inr (by simpa [Token.text, Option.all_eq_true] using hlast))

theorem stretch_piece (hp : p.isSpelled) (hquiet : p.isQuiet) (hapart : p.Apart r)
    (hr : Pointless r) : stretch (p.text ++ r) = p.text.length + stretch r := by
  cases p with
  | token t => exact stretch_token hp hapart hr
  | blank c =>
    have hc : c = ' ' ∨ c = '\t' ∨ c = '\r' ∨ c = '\n' := by simpa [Piece.isSpelled] using hp
    have hplain : (∀ x ∈ [c], x ≠ '.' ∧ x ≠ '"') ∧ ∀ x ∈ [c].getLast?, isFigure x = false := by
      rcases hc with rfl | rfl | rfl | rfl <;> simp [isFigure]
    exact stretch_plain hplain.1 (.inr hplain.2)
  | line opening inner =>
    simp only [Piece.isSpelled, Bool.and_eq_true, decide_eq_true_eq] at hp
    have hopenings : ∀ s ∈ ["%", "//"], (∀ x ∈ s.toList, x ≠ '.' ∧ x ≠ '"') ∧
        ∀ x ∈ s.toList.getLast?, isFigure x = false := by
      simp [isFigure]
    obtain ⟨hplain, hlast⟩ := hopenings opening hp.1
    have hr : Undigited r ∧ Pointless r := by
      refine ⟨fun x hx => ?_, hr⟩
      have hbreak : some x = some '\n' ∨ some x = some '\r' := hx ▸ hapart
      rcases hbreak with h | h <;> cases h <;> decide
    rw [Piece.text, List.append_assoc, stretch_plain hplain (.inr hlast),
      stretch_passed hquiet (.inl hr), List.length_append, Nat.add_assoc]
  | block inner =>
    have hclose : stretch (['*', '/'] ++ r) = 2 + stretch r :=
      stretch_plain (by simp) (.inr (by simp [isFigure]))
    have hinner : stretch (inner ++ (['*', '/'] ++ r)) = inner.length + stretch (['*', '/'] ++ r) :=
      stretch_passed hquiet (.inl ⟨by simp [Undigited], by simp [Pointless]⟩)
    have hopen : stretch (['/', '*'] ++ (inner ++ (['*', '/'] ++ r))) =
        2 + stretch (inner ++ (['*', '/'] ++ r)) :=
      stretch_plain (by simp) (.inr (by simp [isFigure]))
    have htext : (Piece.block inner).text ++ r = ['/', '*'] ++ (inner ++ (['*', '/'] ++ r)) := by
      simp [Piece.text]
    rw [htext, hopen, hinner, hclose, Piece.text]
    simp only [List.length_cons, List.length_append, List.length_nil]
    omega

/-- A malformed statement is searched for its point only, where no comment is in the way. -/
theorem stretch_pieces {y : List Char} (h : Chain ps ('.' :: y)) (hquiet : ps.all Piece.isQuiet)
    (hy : Undigited y) : stretch (pieceText ps ++ '.' :: y) = (pieceText ps).length + 1 := by
  induction ps with
  | nil => rw [pieceText_nil, List.nil_append, stretch_point]; rfl
  | cons p ps ih =>
    obtain ⟨hp, hapart, hps⟩ := h
    simp only [List.all_cons, Bool.and_eq_true] at hquiet
    rw [pieceText_cons, List.append_assoc,
      stretch_piece hp hquiet.1 hapart (pointless_pieces hps hy), ih hps hquiet.2,
      List.length_append, Nat.add_assoc]

end Pieces

def diagnostics (text : String) : List Diagnostic :=
  match parse text with
  | .ok _ => []
  | .error ds => ds

theorem diagnostics_eq (text : String) :
    diagnostics text = (statements text).filterMap Statement.diagnostic? := by
  unfold diagnostics
  cases h : parse text with
  | ok script => exact (parse_eq_ok h).1.symm
  | error ds => exact (parse_eq_error h).1.symm

section Statements

variable {ps : List Piece} {t : Token} {y : List Char}

/-- What is no item before the point alone is none whatever follows. -/
theorem item_eq_none (hchain : Chain ps ['.'])
    (hnone : item { rest := pieceText ps ++ ['.'] } = none) (hy : Undigited y) :
    item { rest := pieceText ps ++ '.' :: y } = none := by
  have htailed : Tailed [] y { rest := pieceText ps ++ ['.'] }
      { rest := pieceText ps ++ '.' :: y } :=
    ⟨rfl, rfl, ps, rfl, rfl, hchain, hchain.point fun _ => hy⟩
  have hrel := item_tailed htailed
  rw [hnone] at hrel
  exact rel_none_left hrel

theorem nextStatement_malformed (hchain : Chain ps ['.']) (hfirst : ∀ p ∈ ps.head?, p.isGap = false)
    (hquiet : ps.all Piece.isQuiet) (hnone : item { rest := pieceText ps ++ ['.'] } = none)
    (hy : Undigited y) : nextStatement { rest := pieceText ps ++ '.' :: y } =
      some (.malformed (String.ofList (pieceText ps ++ ['.']))
        (Span.between {} ((pieceText ps ++ ['.']).foldl Place.next {})),
        { rest := y, place := (pieceText ps ++ ['.']).foldl Place.next {} }) := by
  have hchain' : Chain ps ('.' :: y) := hchain.point fun _ => hy
  have hblank : blankLength (pieceText ps ++ '.' :: y) = 0 :=
    blankLength_eq_zero hchain' hfirst rfl (by decide)
  have hlen := stretch_pieces hchain' hquiet hy
  have htake : (pieceText ps ++ '.' :: y).take (stretch (pieceText ps ++ '.' :: y)) =
      pieceText ps ++ ['.'] := by
    rw [hlen]
    simp [List.take_append, List.take_of_length_le]
  have hdrop : (pieceText ps ++ '.' :: y).drop (stretch (pieceText ps ++ '.' :: y)) = y := by
    rw [hlen]
    simp [List.drop_append]
  have hnone' := item_eq_none hchain hnone hy
  have hmalformed := malformed_eq (c := { rest := pieceText ps ++ '.' :: y }) (by simp)
  simp only [Cursor.advance, htake, hdrop] at hmalformed
  have hstart : Cursor.advance { rest := pieceText ps ++ '.' :: y } 0 =
      { rest := pieceText ps ++ '.' :: y } := rfl
  rw [nextStatement_eq, hblank, hstart]
  simp [statement, hnone', hmalformed]

end Statements

theorem malformed_statement_recovery (ps : List Piece) (hchain : Chain ps ['.'])
    (hfirst : ∀ p ∈ ps.head?, p.isGap = false) (hquiet : ps.all Piece.isQuiet) {m : String}
    (hm : m.toList = pieceText ps) (hnone : item { rest := (m ++ ".").toList } = none)
    (s : String) : diagnostics (m ++ ".\n" ++ s) =
      ⟨.reading, .error, "S002", "unexpected syntax: `" ++ Fault.excerpt (m ++ ".") ++ "`",
        some ⟨0, (m ++ ".").utf8ByteSize, 1, 1⟩⟩ ::
      (diagnostics s).map (Diagnostic.mapSpan (Span.shift (.after (m ++ ".\n")))) := by
  have htext : pieceText ps ++ ['.'] = (m ++ ".").toList := by simp [hm]
  rw [← htext] at hnone
  have hnext :=
    nextStatement_malformed (y := '\n' :: s.toList) hchain hfirst hquiet hnone (by simp [Undigited])
  rw [htext, String.ofList_toList] at hnext
  have hbreak : m ++ "." ++ "\n" = m ++ ".\n" := by
    apply String.toList_injective
    simp
  have hmore : statementsAt
      { rest := '\n' :: s.toList, place := (m ++ ".").toList.foldl Place.next {} } =
      (statements s).map (Statement.mapSpan (Span.shift (.after (m ++ ".\n")))) := by
    rw [← hbreak, ← statementsAt_after,
      ← statementsAt_advance (n := 1) (by simp [blankLength]; omega)]
    rfl
  have hstatements : statements (m ++ ".\n" ++ s) =
      .malformed (m ++ ".") (Span.between {} ((m ++ ".").toList.foldl Place.next {})) ::
        (statements s).map (Statement.mapSpan (Span.shift (.after (m ++ ".\n")))) := by
    have hrest : (m ++ ".\n" ++ s).toList = pieceText ps ++ '.' :: '\n' :: s.toList := by simp [hm]
    rw [statements_eq, hrest, statementsAt_of_some hnext, hmore]
  have hspan : Span.between {} ((m ++ ".").toList.foldl Place.next {}) =
      ⟨0, (m ++ ".").utf8ByteSize, 1, 1⟩ := by
    rw [Span.between, Place.foldl_next_offset, String.ofList_toList, Nat.zero_add]
  rw [diagnostics_eq, hstatements, List.filterMap_cons, filterMap_diagnostic?_moved,
    ← diagnostics_eq, hspan]
  rfl

def brokenCall (comment : String) : List Piece :=
  [.token (.word 'c' "olor".toList), .token (.mark "("), .token (.word 'X' []),
    .blank ' ', .block comment.toList, .blank ' ', .token (.quoted "a.b".toList),
    .token (.mark ","), .token (.float true ['1'] ['5']), .token (.mark ")")]

def brokenText : String := "color(X /* was 2.5 or \"n.a.\" */ \"a.b\",-1.5)"

theorem malformed_statement_recovery_call :
    (brokenCall " was 2.5 or \"n.a.\" ").all Piece.isQuiet ∧
      item { rest := (brokenText ++ ".").toList } = none ∧
      diagnostics (brokenText ++ ".\n" ++ "ok(a") =
        ⟨.reading, .error, "S002",
          "unexpected syntax: `" ++ Fault.excerpt (brokenText ++ ".") ++ "`", some ⟨0, 44, 1, 1⟩⟩ ::
        (diagnostics "ok(a").map (Diagnostic.mapSpan (Span.shift ⟨45, 1⟩)) := by
  have hnone : item { rest := (brokenText ++ ".").toList } = none :=
    Option.isNone_iff_eq_none.mp (by decide +kernel)
  have hquiet : (brokenCall " was 2.5 or \"n.a.\" ").all Piece.isQuiet := by decide
  have hfirst : ∀ p ∈ (brokenCall " was 2.5 or \"n.a.\" ").head?, p.isGap = false := by
    simp [brokenCall, Piece.isGap]
  exact ⟨hquiet, hnone,
    malformed_statement_recovery _ (by decide) hfirst hquiet (by decide) hnone "ok(a"⟩

/-- A point in a comment ends a malformed statement too early, and what is left becomes another. -/
theorem comment_splits_statement :
    Chain (brokenCall " old. ") ['.'] ∧ item { rest := pieceText (brokenCall " old. ") ++ ['.'] } =
      none ∧
      (diagnostics (String.ofList (pieceText (brokenCall " old. ")) ++ ".\n" ++ "ok(a).")).length =
      2 ∧ diagnostics "ok(a)." = [] := by
  exact ⟨by decide,
    Option.isNone_iff_eq_none.mp (by decide +kernel), by decide +kernel, by decide +kernel⟩

end GraphRules.Script
