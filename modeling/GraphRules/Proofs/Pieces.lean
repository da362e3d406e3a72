import GraphRules.Proofs.Tokens

/-! Texts cut into pieces. Whatever a scan finds is a token that ends where it must, and whatever is
passed as blank is made of blanks and comments. So a text from which an item is read is a chain of
such pieces up to its point, and another text with the same pieces gives the same item, whatever
stands after the point. -/
namespace GraphRules.Script

section Measures

variable {cs : List Char} {n : Nat}

theorem exists_takeWhile (p : Char → Bool) (cs : List Char) :
    ∃ r, cs = cs.takeWhile p ++ r ∧ ∀ x ∈ r.head?, p x = false := by
  refine ⟨cs.dropWhile p, List.takeWhile_append_dropWhile.symm, fun x hx => ?_⟩
  have hhead := List.head?_dropWhile_not p cs
  rw [hx] at hhead
  simpa using hhead

theorem nameLength?_eq_some {first : Char → Bool} (h : nameLength? first cs = some n) :
    ∃ c ds r, cs = c :: ds ++ r ∧ first c ∧ ds.all isNameChar ∧ Closed r ∧ n = ds.length + 1 := by
  cases cs with
  | nil => simp [nameLength?] at h
  | cons c cs =>
    simp only [nameLength?, Option.ite_none_right_eq_some, Option.some.injEq] at h
    obtain ⟨r, hcs, hr⟩ := exists_takeWhile isNameChar cs
    exact ⟨c, cs.takeWhile isNameChar, r, congrArg (c :: ·) hcs, h.1,
      List.all_takeWhile, hr, h.2.symm⟩

theorem isDigits_takeWhile (h : (cs.takeWhile Char.isDigit).length ≠ 0) :
    isDigits (cs.takeWhile Char.isDigit) := by
  have hall : (cs.takeWhile Char.isDigit).all Char.isDigit := List.all_takeWhile
  cases hds : cs.takeWhile Char.isDigit with
  | nil => simp [hds] at h
  | cons d ds => simpa [isDigits, hds] using hall

theorem integerLength?_eq_some (h : integerLength? cs = some n) :
    ∃ negative ds r, cs = minus negative ++ ds ++ r ∧ isDigits ds ∧ Undigited r ∧
      n = (minus negative).length + ds.length := by
  by_cases hminus : ∃ ds, cs = '-' :: ds
  · obtain ⟨ds, rfl⟩ := hminus
    rw [integerLength?_minus] at h
    simp only [Option.ite_none_left_eq_some, Option.some.injEq] at h
    obtain ⟨r, hds, hr⟩ := exists_takeWhile Char.isDigit ds
    exact ⟨true, ds.takeWhile Char.isDigit, r, congrArg ('-' :: ·) hds,
      isDigits_takeWhile h.1, hr, h.2.symm⟩
  · rw [integerLength?_plain] at h
    · simp only [Option.ite_none_left_eq_some, Option.some.injEq] at h
      obtain ⟨r, hcs, hr⟩ := exists_takeWhile Char.isDigit cs
      exact ⟨false, cs.takeWhile Char.isDigit, r, hcs, isDigits_takeWhile h.1, hr, h.2.symm⟩
    · rintro x hx rfl
      cases cs with
      | nil => simp at hx
      | cons c cs => exact hminus ⟨cs, by simpa using hx⟩

theorem floatLength?_eq_some (h : floatLength? cs = some n) :
    ∃ negative ds es r, cs = minus negative ++ ds ++ '.' :: es ++ r ∧ isDigits ds ∧ isDigits es ∧
      Undigited r ∧ n = (minus negative).length + ds.length + 1 + es.length := by
  cases hint : integerLength? cs with
  | none => simp [floatLength?_none hint] at h
  | some k =>
    obtain ⟨negative, ds, r, rfl, hds, hr, rfl⟩ := integerLength?_eq_some hint
    have hdrop : (minus negative ++ ds ++ r).drop ((minus negative).length + ds.length) = r := by
      simp [List.drop_append]
    simp only [floatLength?, hint, hdrop] at h
    split at h
    next es =>
      simp only [Option.ite_none_left_eq_some, Option.some.injEq] at h
      obtain ⟨r', hes, hr'⟩ := exists_takeWhile Char.isDigit es
      refine ⟨negative, ds, es.takeWhile Char.isDigit, r', ?_, hds,
        isDigits_takeWhile h.1, hr', h.2.symm⟩
      simpa using hes
    next => cases h

theorem pointless_of_floatLength? {negative : Bool} {ds r : List Char} (hds : isDigits ds)
    (h : floatLength? (minus negative ++ ds ++ r) = none) : Pointless r := by
  rintro es rfl
  intro x hx
  cases hdigit : x.isDigit with
  | false => rfl
  | true =>
    obtain ⟨r', hes, hr'⟩ := exists_takeWhile Char.isDigit es
    have hdigits : isDigits (es.takeWhile Char.isDigit) := by
      apply isDigits_takeWhile
      cases es with
      | nil => simp at hx
      | cons y ys =>
        have hy : y.isDigit := by rwa [show y = x by simpa using hx]
        simp [hy]
    have hfloat := floatLength?_append negative hds hdigits hr'
    rw [List.append_assoc, List.cons_append, ← hes] at hfloat
    rw [hfloat] at h
    cases h

theorem innerLength?_eq_some (h : innerLength? cs = some n) :
    ∃ inner r, cs = inner ++ '"' :: r ∧ isInner inner ∧ n = inner.length := by
  fun_induction innerLength? cs generalizing n with
  | case1 => cases h
  | case2 cs => exact ⟨[], cs, rfl, rfl, by simpa using h.symm⟩
  | case3 => cases h
  | case4 c cs ih =>
    obtain ⟨k, hk, rfl⟩ := Option.map_eq_some_iff.mp h
    obtain ⟨inner, r, rfl, hinner, rfl⟩ := ih hk
    exact ⟨'\\' :: c :: inner, r, rfl, by simpa [isInner] using hinner, rfl⟩
  | case5 c cs h1 h2 h3 ih =>
    obtain ⟨k, hk, rfl⟩ := Option.map_eq_some_iff.mp h
    obtain ⟨inner, r, rfl, hinner, rfl⟩ := ih hk
    refine ⟨c :: inner, r, rfl, ?_, rfl⟩
    have hslash : c ≠ '\\' := by
      rintro rfl
      cases inner with
      | nil => exact h3 _ _ rfl rfl
      | cons x xs => exact h3 _ _ rfl rfl
    rw [isInner]
    · exact hinner
    all_goals simp_all

theorem stringLength?_eq_some (h : stringLength? cs = some n) :
    ∃ inner r, cs = '"' :: inner ++ '"' :: r ∧ isInner inner ∧ n = inner.length + 2 := by
  unfold stringLength? at h
  split at h
  next cs =>
    obtain ⟨k, hk, rfl⟩ := Option.map_eq_some_iff.mp h
    obtain ⟨inner, r, rfl, hinner, rfl⟩ := innerLength?_eq_some hk
    exact ⟨inner, r, rfl, hinner, rfl⟩
  next => cases h

theorem wildcardLength?_eq_some (h : wildcardLength? cs = some n) :
    ∃ r, cs = '_' :: r ∧ Closed r ∧ n = 1 := by
  unfold wildcardLength? at h
  split at h
  next cs =>
    cases cs with
    | nil => exact ⟨[], rfl, by simp [Closed], by simpa using h.symm⟩
    | cons c cs =>
      simp only [Option.ite_none_left_eq_some, Option.some.injEq] at h
      exact ⟨c :: cs, rfl, by simpa [Closed] using h.1, h.2.symm⟩
  next => cases h

end Measures

def TokenAt (cs : List Char) (n : Nat) : Prop :=
  ∃ (t : Token) (r : List Char), cs = t.text ++ r ∧ t.isSpelled ∧ t.Apart r ∧ n = t.text.length

section Found

variable {cs : List Char} {n : Nat} {measure : List Char → Option Nat} {kind : String → ArgKind}
  {k : Comparator}

theorem tokenAt_of_nameLength? {first : Char → Bool} (hfirst : ∀ c, first c → isWordStart c)
    (h : nameLength? first cs = some n) : TokenAt cs n := by
  obtain ⟨c, ds, r, rfl, hc, hds, hr, rfl⟩ := nameLength?_eq_some h
  exact ⟨.word c ds, r, rfl, by simp [Token.isSpelled, hfirst c hc, hds], hr, rfl⟩

theorem tokenAt_of_wildcardLength? (h : wildcardLength? cs = some n) : TokenAt cs n := by
  obtain ⟨r, rfl, hr, rfl⟩ := wildcardLength?_eq_some h
  exact ⟨.word '_' [], r, rfl, rfl, hr, rfl⟩

theorem tokenAt_of_stringLength? (h : stringLength? cs = some n) : TokenAt cs n := by
  obtain ⟨inner, r, rfl, hinner, rfl⟩ := stringLength?_eq_some h
  exact ⟨.quoted inner, r, by simp [Token.text], hinner, trivial, by simp [Token.text]⟩

theorem tokenAt_of_floatLength? (h : floatLength? cs = some n) : TokenAt cs n := by
  obtain ⟨negative, ds, es, r, rfl, hds, hes, hr, rfl⟩ := floatLength?_eq_some h
  refine ⟨.float negative ds es, r, rfl, by simp [Token.isSpelled, hds, hes], hr, ?_⟩
  simp [Token.text]
  omega

theorem tokenAt_of_integerLength? (hfloat : floatLength? cs = none)
    (h : integerLength? cs = some n) : TokenAt cs n := by
  obtain ⟨negative, ds, r, rfl, hds, hr, rfl⟩ := integerLength?_eq_some h
  exact ⟨.integer negative ds, r, rfl, hds,
    ⟨hr, pointless_of_floatLength? hds hfloat⟩, by simp [Token.text]⟩

theorem measure_of_textScan {x : String × Nat} (h : textScan measure cs = some x) :
    measure cs = some x.2 := by
  obtain ⟨k, hk, rfl⟩ := Option.map_eq_some_iff.mp h
  exact hk

theorem measure_of_kindScan {x : (ArgKind × String) × Nat} (h : kindScan measure kind cs = some x) :
    measure cs = some x.2 := by
  obtain ⟨y, hy, rfl⟩ := Option.map_eq_some_iff.mp h
  exact measure_of_textScan hy

theorem measure_of_kindScan_none (h : kindScan measure kind cs = none) : measure cs = none := by
  simpa [kindScan, textScan] using h

theorem tokenAt_of_nameScan {x : String × Nat} (h : nameScan cs = some x) : TokenAt cs x.2 :=
  tokenAt_of_nameLength? (fun c hc => by simp [isWordStart, hc]) (measure_of_textScan h)

theorem tokenAt_of_quotedScan {x : String × Nat} (h : quotedScan cs = some x) : TokenAt cs x.2 := by
  obtain ⟨y, hy, rfl⟩ := Option.map_eq_some_iff.mp h
  exact tokenAt_of_stringLength? (measure_of_textScan (x := y) hy)

theorem tokenAt_of_argScan {x : (ArgKind × String) × Nat} (h : argScan cs = some x) :
    TokenAt cs x.2 := by
  unfold argScan at h
  rcases Option.or_eq_some_iff.mp h with h | ⟨hfloat, h⟩
  · exact tokenAt_of_floatLength? (measure_of_kindScan h)
  rcases Option.or_eq_some_iff.mp h with h | ⟨_, h⟩
  · exact tokenAt_of_integerLength? (measure_of_kindScan_none hfloat) (measure_of_kindScan h)
  rcases Option.or_eq_some_iff.mp h with h | ⟨_, h⟩
  · exact tokenAt_of_stringLength? (measure_of_kindScan h)
  rcases Option.or_eq_some_iff.mp h with h | ⟨_, h⟩
  · exact tokenAt_of_wildcardLength? (measure_of_kindScan h)
  rcases Option.or_eq_some_iff.mp h with h | ⟨_, h⟩
  · exact tokenAt_of_nameLength? (fun c hc => by simp [isWordStart, hc]) (measure_of_kindScan h)
  · exact tokenAt_of_nameLength? (fun c hc => by simp [isWordStart, hc]) (measure_of_kindScan h)

theorem tokenAt_of_markScan {s : String} (hs : s ∈ marks ++ comparators)
    (hnext : s ∈ ["<", ">"] → ¬ (s ++ "=").toList <+: cs) {x : Unit × Nat}
    (h : markScan s cs = some x) : TokenAt cs x.2 := by
  unfold markScan at h
  split at h
  next hstarts =>
    cases h
    obtain ⟨r, rfl⟩ := List.isPrefixOf_iff_prefix.mp hstarts
    refine ⟨.mark s, r, rfl, decide_eq_true hs, fun hmem heq => hnext hmem ?_,
      String.length_toList.symm⟩
    cases r with
    | nil => cases heq
    | cons y ys =>
      cases heq
      exact ⟨ys, by simp⟩
  next => cases h

theorem markScan_of_symbolScan {x : Comparator × Nat} (h : symbolScan k cs = some x) :
    markScan k.symbol cs = some ((), x.2) := by
  unfold symbolScan at h
  split at h
  next hstarts =>
    cases h
    simp [markScan, hstarts]
  next => cases h

theorem tokenAt_of_symbolScan (k : Comparator)
    (hnext : k.symbol ∈ ["<", ">"] → ¬ (k.symbol ++ "=").toList <+: cs) {x : Comparator × Nat}
    (h : symbolScan k cs = some x) : TokenAt cs x.2 := by
  refine tokenAt_of_markScan ?_ hnext (markScan_of_symbolScan h)
  cases k <;> decide

theorem not_prefix_of_symbolScan (h : symbolScan k cs = none) : ¬ k.symbol.toList <+: cs := by
  intro hstarts
  simp [symbolScan, hstarts] at h

theorem tokenAt_of_comparatorScan {x : Comparator × Nat} (h : comparatorScan cs = some x) :
    TokenAt cs x.2 := by
  unfold comparatorScan at h
  rcases Option.or_eq_some_iff.mp h with h | ⟨_, h⟩
  · exact tokenAt_of_symbolScan .eq (fun hmem => absurd hmem (by decide)) h
  rcases Option.or_eq_some_iff.mp h with h | ⟨_, h⟩
  · exact tokenAt_of_symbolScan .ne (fun hmem => absurd hmem (by decide)) h
  rcases Option.or_eq_some_iff.mp h with h | ⟨hle, h⟩
  · exact tokenAt_of_symbolScan .le (fun hmem => absurd hmem (by decide)) h
  rcases Option.or_eq_some_iff.mp h with h | ⟨hge, h⟩
  · exact tokenAt_of_symbolScan .ge (fun hmem => absurd hmem (by decide)) h
  rcases Option.or_eq_some_iff.mp h with h | ⟨_, h⟩
  · exact tokenAt_of_symbolScan .lt (fun _ => not_prefix_of_symbolScan hle) h
  · exact tokenAt_of_symbolScan .gt (fun _ => not_prefix_of_symbolScan hge) h

theorem tokenAt_of_wordScan {s : String} (hs : s ∈ words) {x : Unit × Nat}
    (h : wordScan s cs = some x) : TokenAt cs x.2 := by
  have hword : ∀ s ∈ words, ∃ c ds, s.toList = c :: ds ∧ isWordStart c ∧ ds.all isNameChar := by
    intro s hs
    simp only [words, List.mem_cons, List.not_mem_nil, or_false] at hs
    rcases hs with rfl | rfl | rfl | rfl | rfl | rfl <;> exact ⟨_, _, rfl, by decide, by decide⟩
  unfold wordScan at h
  split at h
  next hfound =>
    cases h
    obtain ⟨r, rfl⟩ := List.isPrefixOf_iff_prefix.mp hfound.1
    have hr : Closed r := by simpa [← String.length_toList] using hfound.2
    obtain ⟨c, ds, hsl, hc, hds⟩ := hword s hs
    rw [← String.length_toList, hsl]
    exact ⟨.word c ds, r, rfl, by simp [Token.isSpelled, hc, hds], hr, rfl⟩
  next => cases h

end Found

/-- Scans that go by tokens: what they find at a token depends on that token only, and nothing else
is found. -/
structure Tokenwise (m : Scan α) : Prop where
  atToken : ∀ t : Token, t.isSpelled → ∃ a? : Option α, ∀ r, t.Apart r →
    m (t.text ++ r) = a?.map (·, t.text.length)
  found : ∀ cs x, m cs = some x → TokenAt cs x.2

theorem tokenwise_nameScan : Tokenwise nameScan where
  atToken t h := ⟨t.name?, fun _ => Token.nameScan_text h⟩
  found _ _ := tokenAt_of_nameScan

theorem tokenwise_quotedScan : Tokenwise quotedScan where
  atToken t h := ⟨t.string?, fun _ _ => Token.quotedScan_text h⟩
  found _ _ := tokenAt_of_quotedScan

theorem tokenwise_comparatorScan : Tokenwise comparatorScan where
  atToken t h := ⟨t.comparator?, fun _ => Token.comparatorScan_text h⟩
  found _ _ := tokenAt_of_comparatorScan

theorem tokenwise_argScan : Tokenwise argScan where
  atToken t h :=
    ⟨t.arg?.map (·, String.ofList t.text),
      fun _ hr => by rw [Token.argScan_text h hr, Option.map_map]; rfl⟩
  found _ _ := tokenAt_of_argScan

theorem tokenwise_wordScan {s : String} (hs : s ∈ words) : Tokenwise (wordScan s) where
  atToken t h := by
    by_cases heq : t.text = s.toList
    · exact ⟨some (),
        fun r hr => by rw [Token.wordScan_text hs h hr, if_pos heq, heq, String.length_toList]; rfl⟩
    · exact ⟨none, fun r hr => by rw [Token.wordScan_text hs h hr, if_neg heq]; rfl⟩
  found _ _ := tokenAt_of_wordScan hs

theorem tokenwise_markScan {s : String} (hs : s ∈ marks) : Tokenwise (markScan s) where
  atToken t h := by
    by_cases heq : t.text = s.toList
    · exact ⟨some (),
        fun r _ => by rw [Token.markScan_text hs h, if_pos heq, heq, String.length_toList]; rfl⟩
    · exact ⟨none, fun r _ => by rw [Token.markScan_text hs h, if_neg heq]; rfl⟩
  found _ _ := by
    have hmarks : ∀ s ∈ marks, s ∉ ["<", ">"] := by decide
    exact tokenAt_of_markScan (List.mem_append_left _ hs) fun hmem => absurd hmem (hmarks s hs)

def isGapStart (c : Char) : Bool := c ∈ [' ', '\t', '\r', '\n', '%', '/']

def isComment : List Char → Bool
  | [] => true
  | '*' :: '/' :: _ => false
  | _ :: cs => isComment cs

inductive Piece where
  | token (t : Token)
  | blank (c : Char)
  /-- A comment up to the end of its line. -/
  | line (opening : String) (inner : List Char)
  /-- A comment between marks. -/
  | block (inner : List Char)

namespace Piece

def text : Piece → List Char
  | token t => t.text
  | blank c => [c]
  | line opening inner => opening.toList ++ inner
  | block inner => '/' :: '*' :: inner ++ ['*', '/']

def isGap : Piece → Bool
  | token _ => false
  | _ => true

def isSpelled : Piece → Bool
  | token t => t.isSpelled
  | blank c => c ∈ [' ', '\t', '\r', '\n']
  | line opening inner => opening ∈ ["%", "//"] && inner.all fun c => c ≠ '\n' && c ≠ '\r'
  | block inner => isComment inner

def Apart : Piece → List Char → Prop
  | token t, r => t.Apart r
  | line _ _, r => r.head? = some '\n' ∨ r.head? = some '\r'
  | _, _ => True

instance (p : Piece) (r : List Char) : Decidable (p.Apart r) :=
  match p with
  | token t => inferInstanceAs (Decidable (t.Apart r))
  | line _ _ => inferInstanceAs (Decidable (_ ∨ _))
  | blank _ => isTrue trivial
  | block _ => isTrue trivial

end Piece

def pieceText (ps : List Piece) : List Char := ps.flatMap Piece.text

/-- Well-spelled pieces that end where they should, with a text after them. -/
def Chain : List Piece → List Char → Prop
  | [], _ => True
  | p :: ps, r => p.isSpelled ∧ p.Apart (pieceText ps ++ r) ∧ Chain ps r

instance Chain.decidable : ∀ (ps : List Piece) (r : List Char), Decidable (Chain ps r)
  | [], _ => isTrue trivial
  | _ :: ps, r =>
    have := Chain.decidable ps r
    inferInstanceAs (Decidable (_ ∧ _ ∧ _))

section Chains

variable {ps qs : List Piece} {p : Piece} {r : List Char}

@[simp] theorem pieceText_nil : pieceText [] = [] := rfl

@[simp] theorem pieceText_cons : pieceText (p :: ps) = p.text ++ pieceText ps := rfl

@[simp] theorem pieceText_append : pieceText (ps ++ qs) = pieceText ps ++ pieceText qs :=
  List.flatMap_append

theorem Chain.append : Chain ps (pieceText qs ++ r) → Chain qs r → Chain (ps ++ qs) r := by
  intro hps hqs
  induction ps with
  | nil => exact hqs
  | cons p ps ih =>
    obtain ⟨hp, hapart, hps⟩ := hps
    exact ⟨hp, by simpa using hapart, ih hps⟩

end Chains

section Gaps

variable {g : Piece} {gs : List Piece} {r cs inner : List Char} {n : Nat} {c : Char}

theorem lineLength_append (hinner : inner.all fun c => c ≠ '\n' && c ≠ '\r')
    (hr : r.head? = some '\n' ∨ r.head? = some '\r') :
    lineLength (inner ++ r) = inner.length + blankLength r := by
  induction inner with
  | nil =>
    cases r with
    | nil => simp at hr
    | cons x xs =>
      have hx : x = '\n' ∨ x = '\r' := by simpa using hr
      rcases hx with rfl | rfl <;> simp [lineLength, blankLength]
  | cons c cs ih =>
    simp only [List.all_cons, Bool.and_eq_true, decide_eq_true_eq] at hinner
    simp [lineLength, hinner.1, ih hinner.2]
    omega

theorem blockLength?_append (hinner : isComment inner) :
    blockLength? (inner ++ '*' :: '/' :: r) = some (inner.length + 2 + blankLength r) := by
  fun_induction isComment inner with
  | case1 => simp [blockLength?, Nat.add_comm]
  | case2 => cases hinner
  | case3 c cs hmark ih =>
    rw [List.cons_append, blockLength?, ih hinner]
    · simp
      omega
    · rintro ds rfl hds
      cases cs with
      | nil => cases hds
      | cons x xs =>
        cases hds
        exact hmark xs rfl rfl

theorem blankLength_gap (hgap : g.isGap) (hg : g.isSpelled) (hr : g.Apart r) :
    blankLength (g.text ++ r) = g.text.length + blankLength r := by
  cases g with
  | token t => cases hgap
  | blank c =>
    have hc : c = ' ' ∨ c = '\t' ∨ c = '\r' ∨ c = '\n' := by simpa [Piece.isSpelled] using hg
    rcases hc with rfl | rfl | rfl | rfl <;> simp [Piece.text, blankLength, Nat.add_comm]
  | line opening inner =>
    simp only [Piece.isSpelled, Bool.and_eq_true, decide_eq_true_eq, List.mem_cons,
      List.not_mem_nil, or_false] at hg
    have hline := lineLength_append hg.2 hr
    rcases hg.1 with rfl | rfl
    · simp [Piece.text, blankLength, hline]
      omega
    · simp [Piece.text, blankLength, hline]
      omega
  | block inner =>
    have hblock := blockLength?_append (r := r) hg
    simp [Piece.text, blankLength, hblock]
    omega

theorem blankLength_gaps (hgaps : gs.all Piece.isGap) (h : Chain gs r) :
    blankLength (pieceText gs ++ r) = (pieceText gs).length + blankLength r := by
  induction gs with
  | nil => simp
  | cons g gs ih =>
    simp only [List.all_cons, Bool.and_eq_true] at hgaps
    obtain ⟨hg, hapart, hgs⟩ := h
    rw [pieceText_cons, List.append_assoc, blankLength_gap hgaps.1 hg hapart,
      ih hgaps.2 hgs, List.length_append]
    omega

theorem blankLength_start {x : Char} (h : isGapStart x = false) : blankLength (x :: cs) = 0 := by
  simp only [isGapStart, List.mem_cons, List.not_mem_nil, or_false,
    decide_eq_false_iff_not, not_or] at h
  obtain ⟨hspace, htab, hreturn, hline, hpercent, hslash⟩ := h
  rw [blankLength]
  · simp [hspace, htab, hreturn, hline]
  all_goals simp_all

def GapsAt (cs : List Char) (n : Nat) : Prop :=
  cs.length ≤ n ∨ ∃ gs r, cs = pieceText gs ++ r ∧ gs.all Piece.isGap ∧ Chain gs r ∧
    n = (pieceText gs).length

def LineGapsAt (cs : List Char) (n : Nat) : Prop :=
  cs.length ≤ n ∨ ∃ inner gs r, cs = inner ++ pieceText gs ++ r ∧
    (inner.all fun c => c ≠ '\n' && c ≠ '\r') ∧
    ((pieceText gs ++ r).head? = some '\n' ∨ (pieceText gs ++ r).head? = some '\r') ∧
    gs.all Piece.isGap ∧ Chain gs r ∧ n = inner.length + (pieceText gs).length

def BlockGapsAt (cs : List Char) (n : Nat) : Prop :=
  cs.length ≤ n ∨ ∃ inner gs r, cs = inner ++ '*' :: '/' :: pieceText gs ++ r ∧ isComment inner ∧
    gs.all Piece.isGap ∧ Chain gs r ∧ n = inner.length + 2 + (pieceText gs).length

theorem GapsAt.cons (hgap : g.isGap) (hg : g.isSpelled) (hapart : g.Apart cs) (h : GapsAt cs n) :
    GapsAt (g.text ++ cs) (g.text.length + n) := by
  rcases h with h | ⟨gs, r, rfl, hgs, hchain, rfl⟩
  · left
    rw [List.length_append]
    omega
  · exact .inr ⟨g :: gs, r, by simp, by simp [hgap, hgs], ⟨hg, hapart, hchain⟩, by simp⟩

theorem LineGapsAt.gapsAt (opening : String) (hopening : opening ∈ ["%", "//"])
    (h : LineGapsAt cs n) : GapsAt (opening.toList ++ cs) (opening.toList.length + n) := by
  rcases h with h | ⟨inner, gs, r, rfl, hinner, hline, hgs, hchain, rfl⟩
  · left
    rw [List.length_append]
    omega
  · have hg : (Piece.line opening inner).isSpelled := by simp_all [Piece.isSpelled]
    refine .inr ⟨.line opening inner :: gs,
      r, by simp [Piece.text], by simpa [Piece.isGap] using hgs, ⟨hg, hline, hchain⟩, ?_⟩
    simp [Piece.text]

theorem BlockGapsAt.gapsAt (h : BlockGapsAt cs n) : GapsAt ('/' :: '*' :: cs) (n + 2) := by
  rcases h with h | ⟨inner, gs, r, rfl, hinner, hgs, hchain, rfl⟩
  · left
    simp only [List.length_cons]
    omega
  · refine .inr ⟨.block inner :: gs, r, by simp [Piece.text], by simpa [Piece.isGap] using hgs,
      ⟨hinner, trivial, hchain⟩, ?_⟩
    simp [Piece.text]
    omega

theorem gapsAt_zero (cs : List Char) : GapsAt cs 0 := .inr ⟨[], cs, rfl, rfl, trivial, rfl⟩

theorem GapsAt.lineGapsAt (hc : c = '\n' ∨ c = '\r') (h : GapsAt cs n) :
    LineGapsAt (c :: cs) (n + 1) := by
  have hblank : (Piece.blank c).isSpelled := by
    rcases hc with rfl | rfl <;> decide
  have hcons := h.cons (g := .blank c) rfl hblank trivial
  simp only [Piece.text, List.singleton_append, List.length_singleton] at hcons
  rcases hcons with hlen | ⟨gs, r, hcs, hgs, hchain, hlen⟩
  · left
    omega
  · refine .inr ⟨[], gs, r, hcs, rfl, ?_, hgs, hchain, ?_⟩
    · rw [← hcs]
      simpa using hc
    · rw [← hlen]
      simp
      omega

theorem LineGapsAt.cons (hc : ¬ (c = '\n' ∨ c = '\r')) (h : LineGapsAt cs n) :
    LineGapsAt (c :: cs) (n + 1) := by
  rcases h with h | ⟨inner, gs, r, rfl, hinner, hline, hgs, hchain, rfl⟩
  · left
    simp only [List.length_cons]
    omega
  · refine .inr ⟨c :: inner, gs, r, rfl, by simp_all, hline, hgs, hchain, ?_⟩
    simp
    omega

theorem GapsAt.blockGapsAt (h : GapsAt cs n) : BlockGapsAt ('*' :: '/' :: cs) (n + 2) := by
  rcases h with h | ⟨gs, r, rfl, hgs, hchain, rfl⟩
  · left
    simp only [List.length_cons]
    omega
  · refine .inr ⟨[], gs, r, rfl, rfl, hgs, hchain, ?_⟩
    simp
    omega

theorem BlockGapsAt.cons (hc : ∀ ds, c = '*' → cs ≠ '/' :: ds) (h : BlockGapsAt cs n) :
    BlockGapsAt (c :: cs) (n + 1) := by
  rcases h with h | ⟨inner, gs, r, rfl, hinner, hgs, hchain, rfl⟩
  · left
    simp only [List.length_cons]
    omega
  · refine .inr ⟨c :: inner, gs, r, rfl, ?_, hgs, hchain, by simp; omega⟩
    rw [isComment]
    · exact hinner
    · rintro ds rfl rfl
      exact hc _ rfl rfl

/-- What is passed as blank is made of blanks and comments, except for a comment in the last line.
-/
theorem gapsAt_blankLength (cs : List Char) : GapsAt cs (blankLength cs) := by
  refine (blankLength.mutual_induct (fun cs => GapsAt cs (blankLength cs))
    (fun cs => ∀ n, blockLength? cs = some n → BlockGapsAt cs n) (fun cs =>
      LineGapsAt cs (lineLength cs))
    ?_ ?_ ?_ ?_ ?_ ?_ ?_ ?_ ?_ ?_ ?_ ?_ ?_).1 cs
  · exact gapsAt_zero []
  · intro cs ih
    rw [blankLength, Nat.add_comm]
    exact ih.gapsAt "%" (by decide)
  · intro cs ih
    rw [blankLength, Nat.add_comm]
    exact ih.gapsAt "//" (by decide)
  · intro cs n hn ih
    simp only [blankLength, hn]
    exact (ih n hn).gapsAt
  · intro cs hn _
    simp only [blankLength, hn]
    exact gapsAt_zero _
  · intro c cs hpercent hslash hstar hc ih
    rw [blankLength.eq_5 c cs hpercent hslash hstar, if_pos hc, Nat.add_comm]
    exact ih.cons (g := .blank c) rfl (by simpa [Piece.isSpelled] using hc) trivial
  · intro c cs hpercent hslash hstar hc
    rw [blankLength.eq_5 c cs hpercent hslash hstar, if_neg hc]
    exact gapsAt_zero _
  · intro n hn
    cases hn
  · intro cs ih n hn
    cases hn
    exact ih.blockGapsAt
  · intro c cs hmark ih n hn
    rw [blockLength?.eq_3 c cs hmark] at hn
    obtain ⟨k, hk, rfl⟩ := Option.map_eq_some_iff.mp hn
    exact (ih k hk).cons hmark
  · exact .inl (Nat.le_refl 0)
  · intro c cs hc ih
    rw [lineLength, if_pos hc]
    exact ih.lineGapsAt hc
  · intro c cs hc ih
    rw [lineLength, if_neg hc]
    exact ih.cons hc

end Gaps

section Starts

variable {t : Token} {x : Char} {cs r : List Char}

theorem Token.Starts.not_isGapStart (h : t.Starts x) : isGapStart x = false := by
  have hgap : ∀ x, isGapStart x → isWordStart x = false ∧ ¬ (x.isDigit ∨ x = '-') ∧ x ≠ '"' ∧
      Token.isMarkStart x = false := by
    intro x hx
    simp only [isGapStart, List.mem_cons, List.not_mem_nil, or_false, decide_eq_true_eq] at hx
    rcases hx with rfl | rfl | rfl | rfl | rfl | rfl <;> decide
  by_contra hx
  obtain ⟨hword, hnumber, hquote, hmark⟩ := hgap x (by simpa using hx)
  cases t with
  | word _ _ => simp [Token.Starts, hword] at h
  | integer _ _ => exact hnumber h
  | float _ _ _ => exact hnumber h
  | quoted _ => exact hquote h
  | mark _ => simp [Token.Starts, hmark] at h

theorem Piece.text_cons {p : Piece} (h : p.isSpelled) :
    ∃ x xs, p.text = x :: xs ∧ x ≠ '.' ∧ isGapStart x = p.isGap := by
  cases p with
  | token t =>
    obtain ⟨x, xs, htext, hx⟩ := Token.text_cons h
    exact ⟨x, xs, htext, hx.ne_point, hx.not_isGapStart⟩
  | blank c =>
    have hc : c = ' ' ∨ c = '\t' ∨ c = '\r' ∨ c = '\n' := by simpa [isSpelled] using h
    refine ⟨c, [], rfl, ?_⟩
    rcases hc with rfl | rfl | rfl | rfl <;> decide
  | line opening inner =>
    simp only [isSpelled, Bool.and_eq_true, decide_eq_true_eq, List.mem_cons,
      List.not_mem_nil, or_false] at h
    rcases h.1 with rfl | rfl
    · exact ⟨'%', inner, rfl, by decide, rfl⟩
    · exact ⟨'/', '/' :: inner, rfl, by decide, rfl⟩
  | block inner => exact ⟨'/', _, rfl, by decide, rfl⟩

theorem TokenAt.exists_start {n : Nat} (h : TokenAt cs n) :
    ∃ x xs, cs = x :: xs ∧ isGapStart x = false ∧ x ≠ '.' := by
  obtain ⟨t, r, rfl, ht, _, _⟩ := h
  obtain ⟨x, xs, htext, hx⟩ := Token.text_cons ht
  exact ⟨x, xs ++ r, by rw [htext]; rfl, hx.not_isGapStart, hx.ne_point⟩

theorem Tokenwise.elsewhere {m : Scan α} (hm : Tokenwise m) (h : isGapStart x ∨ x = '.') :
    m (x :: cs) = none := by
  cases hfound : m (x :: cs) with
  | none => rfl
  | some y =>
    obtain ⟨z, zs, heq, hgap, hpoint⟩ := (hm.found _ _ hfound).exists_start
    cases heq
    simp [hgap, hpoint] at h

end Starts

section Transfer

variable {ps gs qs : List Piece} {p : Piece} {t : Token} {r r' cs y : List Char}

theorem Chain.right (h : Chain (ps ++ qs) r) : Chain qs r := by
  induction ps with
  | nil => exact h
  | cons p ps ih => exact ih h.2.2

theorem Chain.left (h : Chain (ps ++ qs) r) : Chain ps (pieceText qs ++ r) := by
  induction ps with
  | nil => trivial
  | cons p ps ih =>
    obtain ⟨hp, hapart, hps⟩ := h
    exact ⟨hp, by simpa using hapart, ih hps⟩

/-- Where a token ends is a matter of the next character, and of a fraction after a point. -/
theorem Token.Apart.congr (h : t.Apart r) (hhead : r'.head? = r.head?)
    (hpoint : Pointless r → Pointless r') : t.Apart r' := by
  cases t with
  | word _ _ => exact fun x hx => h x (hhead ▸ hx)
  | integer _ _ => exact ⟨fun x hx => h.1 x (hhead ▸ hx), hpoint h.2⟩
  | float _ _ _ => exact fun x hx => h x (hhead ▸ hx)
  | quoted _ => trivial
  | mark _ => exact fun hs => hhead ▸ h hs

theorem Piece.Apart.congr (h : p.Apart r) (hhead : r'.head? = r.head?)
    (hpoint : Pointless r → Pointless r') : p.Apart r' := by
  cases p with
  | token t => exact Token.Apart.congr h hhead hpoint
  | blank _ => trivial
  | line _ _ =>
    change r'.head? = some '\n' ∨ r'.head? = some '\r'
    rw [hhead]
    exact h
  | block _ => trivial

theorem pointless_of_ne {x : Char} (h : x ≠ '.') : Pointless (x :: cs) := by
  rintro ds hds
  exact (h (List.cons.inj hds).1).elim

/-- The text after a chain may be replaced by one that starts in the same way. -/
theorem Chain.congr (h : Chain ps r) (hhead : r'.head? = r.head?)
    (hpoint : Pointless r → Pointless r') : Chain ps r' := by
  induction ps with
  | nil => trivial
  | cons p ps ih =>
    obtain ⟨hp, hapart, hps⟩ := h
    refine ⟨hp, ?_, ih hps⟩
    cases ps with
    | nil => exact hapart.congr hhead hpoint
    | cons q qs =>
      obtain ⟨x, xs, htext, hx, _⟩ := Piece.text_cons hps.1
      rw [pieceText_cons, htext] at hapart ⊢
      exact hapart.congr rfl fun _ => pointless_of_ne hx

/-- After the point at the end of a statement only a digit could make a difference. -/
theorem Chain.point {z : List Char} (h : Chain ps ('.' :: y)) (hz : Undigited y → Undigited z) :
    Chain ps ('.' :: z) := by
  refine h.congr rfl fun hy => ?_
  rintro ds hds
  cases hds
  exact hz (hy y rfl)

theorem blankLength_eq_zero {x : Char} (h : Chain ps r) (hgap : ∀ p ∈ ps.head?, p.isGap = false)
    (hr : r = x :: cs) (hx : isGapStart x = false) : blankLength (pieceText ps ++ r) = 0 := by
  cases ps with
  | nil =>
    rw [hr]
    exact blankLength_start hx
  | cons p ps =>
    obtain ⟨y, ys, htext, _, hy⟩ := Piece.text_cons h.1
    rw [pieceText_cons, htext]
    exact blankLength_start (hy.trans (hgap p rfl))

theorem exists_gaps (ps : List Piece) :
    ∃ gs qs, ps = gs ++ qs ∧ gs.all Piece.isGap ∧ ∀ p ∈ qs.head?, p.isGap = false := by
  refine ⟨ps.takeWhile Piece.isGap, ps.dropWhile Piece.isGap, List.takeWhile_append_dropWhile.symm,
    List.all_takeWhile, ?_⟩
  intro p hp
  have hhead := List.head?_dropWhile_not Piece.isGap ps
  rw [hp] at hhead
  simpa using hhead

theorem blankLength_pieces (hgs : gs.all Piece.isGap) (hqs : ∀ p ∈ qs.head?, p.isGap = false)
    (h : Chain (gs ++ qs) ('.' :: r)) :
    blankLength (pieceText (gs ++ qs) ++ '.' :: r) = (pieceText gs).length := by
  rw [pieceText_append, List.append_assoc, blankLength_gaps hgs h.left,
    blankLength_eq_zero h.right hqs rfl (by decide), Nat.add_zero]

/-- No point stands before a digit where a piece or the end of a statement starts. -/
theorem pointless_pieces (h : Chain ps ('.' :: y)) (hy : Undigited y) :
    Pointless (pieceText ps ++ '.' :: y) := by
  cases ps with
  | nil =>
    rintro ds hds
    cases hds
    exact hy
  | cons p ps =>
    obtain ⟨x, xs, htext, hx, _⟩ := Piece.text_cons h.1
    rw [pieceText_cons, htext]
    exact pointless_of_ne hx

end Transfer

end GraphRules.Script
