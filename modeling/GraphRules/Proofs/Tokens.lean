import GraphRules.Proofs.InStep

/-! Tokens and the gaps between them. A text is a chain of pieces if it can be cut into tokens,
blanks and complete comments, each of which ends where it must. At the start of a token every scan
finds the whole token or nothing, and whatever a scan finds is a token; so readers go from piece to
piece. -/
namespace GraphRules.Script

section Characters

theorem isLower_eq (c : Char) :
    c.isLower = (decide ('a'.val ≤ c.val) && decide (c.val ≤ 'z'.val)) := rfl

theorem isUpper_eq (c : Char) : c.isUpper = decide ('A'.val ≤ c.val ∧ c.val ≤ 'Z'.val) := rfl

variable {c : Char}

theorem isNameChar_of_isLower (h : c.isLower) : isNameChar c := by
  have halpha : c.isAlphanum = (c.isUpper || c.isLower || c.isDigit) := rfl
  simp [isNameChar, halpha, h]

theorem isLower_of_isDigit (h : c.isDigit) : c.isLower = false := by
  simp [Char.isDigit, isLower_eq, UInt32.le_iff_toNat_le] at *
  omega

theorem isUpperStart_of_isDigit (h : c.isDigit) : isUpperStart c = false := by
  have hne : c ≠ '_' := by rintro rfl; revert h; decide
  have hupper : c.isUpper = false := by
    simp [Char.isDigit, isUpper_eq, UInt32.le_iff_toNat_le] at *
    omega
  simp [isUpperStart, hne, hupper]

theorem isUpperStart_of_isLower (h : c.isLower) : isUpperStart c = false := by
  have hne : c ≠ '_' := by rintro rfl; revert h; decide
  have hupper : c.isUpper = false := by
    simp [isLower_eq, isUpper_eq, UInt32.le_iff_toNat_le] at *
    omega
  simp [isUpperStart, hne, hupper]

theorem isNameChar_of_isDigit (h : c.isDigit) :
    isNameChar c := by simp [isNameChar, Char.isAlphanum, h]

def isWordStart (c : Char) : Bool := c.isLower || isUpperStart c

theorem isDigit_of_isWordStart (h : isWordStart c) : c.isDigit = false := by
  cases hd : c.isDigit with
  | false => rfl
  | true => simp [isWordStart, isLower_of_isDigit hd, isUpperStart_of_isDigit hd] at h

end Characters

section Measures

variable {p : Char → Bool} {cs r : List Char} {c : Char}

theorem takeWhile_closed (h : ∀ x ∈ cs, p x) (hr : ∀ x ∈ r.head?, p x = false) :
    (cs ++ r).takeWhile p = cs := by
  rw [List.takeWhile_append_of_pos h]
  cases r with
  | nil => simp
  | cons x xs => simp [hr x rfl]

theorem dropWhile_closed (h : ∀ x ∈ cs, p x) (hr : ∀ x ∈ r.head?, p x = false) :
    (cs ++ r).dropWhile p = r := by
  rw [List.dropWhile_append_of_pos h]
  cases r with
  | nil => rfl
  | cons x xs => simp [hr x rfl]

theorem nameLength?_append (first : Char → Bool) (c : Char) (h : cs.all isNameChar)
    (hr : Closed r) :
    nameLength? first (c :: cs ++ r) = if first c then some (cs.length + 1) else none := by
  simp [nameLength?, takeWhile_closed (by simpa using h) hr]

def isDigits (cs : List Char) : Bool := !cs.isEmpty && cs.all Char.isDigit

def minus (negative : Bool) : List Char := if negative then ['-'] else []

def Undigited (cs : List Char) : Prop := ∀ x ∈ cs.head?, x.isDigit = false

instance (cs : List Char) : Decidable (Undigited cs) :=
  decidable_of_iff (cs.head?.all fun x => !x.isDigit) (by simp [Undigited, Option.all_eq_true])

def Pointless (cs : List Char) : Prop := ∀ ds, cs = '.' :: ds → Undigited ds

instance (cs : List Char) : Decidable (Pointless cs) :=
  match cs with
  | [] => isTrue fun _ h => by cases h
  | c :: ds =>
    if h : c = '.' then decidable_of_iff (Undigited ds) ⟨fun hd es he => by cases he; exact hd,
      fun hp => hp ds (by rw [h])⟩
    else isTrue fun es he => by cases he; exact (h rfl).elim

theorem isDigits_cons (h : isDigits cs) : ∃ d ds, cs = d :: ds ∧ d.isDigit := by
  cases cs with
  | nil => simp [isDigits] at h
  | cons d ds => exact ⟨d, ds, rfl, by simp_all [isDigits]⟩

theorem ne_minus_of_isDigit (h : c.isDigit) : c ≠ '-' := by rintro rfl; revert h; decide

theorem integerLength?_minus (cs : List Char) :
    integerLength? ('-' :: cs) =
      if (cs.takeWhile Char.isDigit).length = 0 then none
        else some (1 + (cs.takeWhile Char.isDigit).length) := rfl

theorem integerLength?_plain (h : ∀ x ∈ cs.head?, x ≠ '-') :
    integerLength? cs =
      if (cs.takeWhile Char.isDigit).length = 0 then none
        else some (0 + (cs.takeWhile Char.isDigit).length) := by
  cases cs with
  | nil => rfl
  | cons c cs =>
    have hc : c ≠ '-' := h c rfl
    unfold integerLength?
    split
    next hsplit =>
      split at hsplit
      next hcs => cases hcs; exact (hc rfl).elim
      next => cases hsplit; rfl

theorem integerLength?_append (negative : Bool) (h : isDigits cs) (hr : Undigited r) :
    integerLength? (minus negative ++ cs ++ r) = some ((minus negative).length + cs.length) := by
  obtain ⟨d, ds, rfl, hd⟩ := isDigits_cons h
  have htake : (d :: ds ++ r).takeWhile Char.isDigit = d :: ds :=
    takeWhile_closed (by simpa [isDigits] using h) hr
  cases negative with
  | true =>
    change integerLength? ('-' :: (d :: ds ++ r)) = _
    rw [integerLength?_minus, htake]
    simp [minus]
  | false =>
    change integerLength? (d :: ds ++ r) = _
    rw [integerLength?_plain (by simpa using ne_minus_of_isDigit hd), htake]
    simp [minus]

theorem integerLength?_none (hc : c ≠ '-') (hd : c.isDigit = false) :
    integerLength? (c :: cs) = none := by
  rw [integerLength?_plain (by simpa using hc)]
  simp [hd]

theorem floatLength?_none (h : integerLength? cs = none) :
    floatLength? cs = none := by simp [floatLength?, h]

theorem floatLength?_append (negative : Bool) {ds : List Char} (h : isDigits cs) (hd : isDigits ds)
    (hr : Undigited r) :
    floatLength? (minus negative ++ cs ++ '.' :: ds ++ r) =
      some ((minus negative).length + cs.length + 1 + ds.length) := by
  have hint : integerLength? (minus negative ++ cs ++ '.' :: (ds ++ r)) =
      some ((minus negative).length + cs.length) :=
    integerLength?_append negative h (by simp [Undigited])
  have htake : (ds ++ r).takeWhile Char.isDigit = ds := takeWhile_closed (by simp_all [isDigits]) hr
  have hne : ds.length ≠ 0 := by
    obtain ⟨d, es, rfl, _⟩ := isDigits_cons hd
    simp
  have hdrop : (minus negative ++ cs ++ '.' :: (ds ++ r)).drop
      ((minus negative).length + cs.length) = '.' :: (ds ++ r) := by
    simp [List.drop_append]
  rw [List.append_assoc, List.cons_append]
  simp only [floatLength?, hint, hdrop, htake, hne, if_false]

/-- A whole number without a fraction after it is not the start of a longer number. -/
theorem floatLength?_integer (negative : Bool) (h : isDigits cs) (hr : Undigited r)
    (hp : Pointless r) : floatLength? (minus negative ++ cs ++ r) = none := by
  have hdrop : (minus negative ++ cs ++ r).drop ((minus negative).length + cs.length) = r := by
    simp [List.drop_append]
  simp only [floatLength?, integerLength?_append negative h hr, hdrop]
  split
  next ds =>
    have hds := hp ds rfl
    cases ds with
    | nil => simp
    | cons d ds => simp [hds d rfl]
  next => rfl

/-- What may stand between the quotes of a string: a backslash takes the next character with it. -/
def isInner : List Char → Bool
  | [] => true
  | '"' :: _ => false
  | ['\\'] => false
  | '\\' :: _ :: cs => isInner cs
  | _ :: cs => isInner cs

theorem innerLength?_append (h : isInner cs) : innerLength? (cs ++ '"' :: r) = some cs.length := by
  fun_induction isInner cs with
  | case1 => simp [innerLength?]
  | case2 => simp at h
  | case3 => simp at h
  | case4 c cs ih => simp [innerLength?, ih h]
  | case5 c cs h1 h2 h3 ih =>
    have hquote : c ≠ '"' := by rintro rfl; exact h1 rfl
    have hslash : c ≠ '\\' := by
      rintro rfl
      cases cs with
      | nil => exact h2 rfl rfl
      | cons x xs => exact h3 x xs rfl rfl
    rw [List.cons_append, innerLength?]
    · simp [ih h]
    all_goals simp_all

theorem stringLength?_append (h : isInner cs) :
    stringLength? ('"' :: cs ++ '"' :: r) = some (cs.length + 2) := by
  simp [stringLength?, innerLength?_append h]

theorem stringLength?_none (hc : c ≠ '"') : stringLength? (c :: cs) = none := by
  unfold stringLength?
  split
  next h => cases h; exact (hc rfl).elim
  next => rfl

theorem wildcardLength?_none (hc : c ≠ '_') : wildcardLength? (c :: cs) = none := by
  unfold wildcardLength?
  split
  next h => cases h; exact (hc rfl).elim
  next => rfl

end Measures

inductive Token where
  /-- A name, a variable or the wildcard. -/
  | word (first : Char) (others : List Char)
  | integer (negative : Bool) (digits : List Char)
  | float (negative : Bool) (whole fraction : List Char)
  | quoted (inner : List Char)
  /-- Punctuation or a comparison. -/
  | mark (s : String)

def comparators : List String := Comparator.all.map Comparator.symbol

namespace Token

def text : Token → List Char
  | word first others => first :: others
  | integer negative digits => minus negative ++ digits
  | float negative whole fraction => minus negative ++ whole ++ '.' :: fraction
  | quoted inner => '"' :: inner ++ ['"']
  | mark s => s.toList

def isSpelled : Token → Bool
  | word first others => isWordStart first && others.all isNameChar
  | integer _ digits => isDigits digits
  | float _ whole fraction => isDigits whole && isDigits fraction
  | quoted inner => isInner inner
  | mark s => decide (s ∈ marks ++ comparators)

def Apart : Token → List Char → Prop
  | word _ _, r => Closed r
  | integer _ _, r => Undigited r ∧ Pointless r
  | float _ _ _, r => Undigited r
  | quoted _, _ => True
  | mark s, r => s ∈ ["<", ">"] → r.head? ≠ some '='

instance (t : Token) (r : List Char) : Decidable (t.Apart r) :=
  match t with
  | word _ _ => inferInstanceAs (Decidable (Closed r))
  | integer _ _ => inferInstanceAs (Decidable (_ ∧ _))
  | float _ _ _ => inferInstanceAs (Decidable (Undigited r))
  | quoted _ => isTrue trivial
  | mark s => inferInstanceAs (Decidable (s ∈ ["<", ">"] → _))

def name? : Token → Option String
  | word first others => if first.isLower then some (String.ofList (first :: others)) else none
  | _ => none

def string? : Token → Option String
  | quoted inner => some (String.ofList (Text.decode inner))
  | _ => none

def comparator? : Token → Option Comparator
  | mark s => Comparator.ofSymbol? s
  | _ => none

def arg? : Token → Option ArgKind
  | word first others =>
    if first.isLower then some (.symbol (String.ofList (first :: others)))
    else if first = '_' ∧ others = [] then some .wildcard
    else some (.var (String.ofList (first :: others)))
  | integer negative digits => some (.int (intValue (String.ofList (minus negative ++ digits))))
  | float negative whole fraction =>
    some (.float (floatValue (String.ofList (minus negative ++ whole ++ '.' :: fraction))))
  | quoted inner => some (.quoted (String.ofList (Text.decode inner)))
  | mark _ => none

variable {t : Token} {r ds : List Char} {s : String} {x : Char}

def isMarkStart (c : Char) : Bool := c ∈ ['(', ')', ',', ';', ':', '-', '=', '!', '<', '>']

def Starts : Token → Char → Prop
  | word _ _, x => isWordStart x
  | integer _ _, x => x.isDigit ∨ x = '-'
  | float _ _ _, x => x.isDigit ∨ x = '-'
  | quoted _, x => x = '"'
  | mark _, x => isMarkStart x

theorem starts_minus (negative : Bool) {cs : List Char} (h : isDigits cs) (ds : List Char) :
    ∃ x xs, minus negative ++ cs ++ ds = x :: xs ∧ (x.isDigit ∨ x = '-') := by
  obtain ⟨d, es, rfl, hd⟩ := isDigits_cons h
  cases negative with
  | true => exact ⟨'-', d :: es ++ ds, rfl, .inr rfl⟩
  | false => exact ⟨d, es ++ ds, rfl, .inl hd⟩

/-- Marks are not empty, and only an arrow starts with a minus sign. -/
theorem mark_cons (hs : s ∈ marks ++ comparators) :
    ∃ x xs, s.toList = x :: xs ∧ isMarkStart x ∧ (x = '-' → xs = ['>']) := by
  have hstart : ∀ s ∈ marks ++ comparators, s.toList.head?.any isMarkStart ∧
      (s.toList.head? = some '-' → s.toList.tail = ['>']) := by decide
  obtain ⟨hmark, harrow⟩ := hstart s hs
  cases hsl : s.toList with
  | nil => simp [hsl] at hmark
  | cons x xs =>
    rw [hsl] at hmark harrow
    exact ⟨x, xs, rfl, hmark, fun hx => harrow (by rw [hx]; rfl)⟩

theorem text_cons (h : t.isSpelled) : ∃ x xs, t.text = x :: xs ∧ t.Starts x := by
  cases t with
  | word c cs => exact ⟨c, cs, rfl, by simp_all [isSpelled, Starts]⟩
  | integer negative digits =>
    obtain ⟨x, xs, htext, hx⟩ := starts_minus negative h []
    exact ⟨x, xs, by rw [← htext, List.append_nil]; rfl, hx⟩
  | float negative whole fraction =>
    simp only [isSpelled, Bool.and_eq_true] at h
    exact starts_minus negative h.1 ('.' :: fraction)
  | quoted inner => exact ⟨'"', inner ++ ['"'], rfl, rfl⟩
  | mark s =>
    obtain ⟨x, xs, hsl, hx, _⟩ := mark_cons (of_decide_eq_true h)
    exact ⟨x, xs, hsl, hx⟩

theorem isMarkStart_cases (h : isMarkStart x) :
    isWordStart x = false ∧ x.isDigit = false ∧ x ≠ '"' ∧ x ≠ '.' := by
  simp only [isMarkStart, List.mem_cons, List.not_mem_nil, or_false, decide_eq_true_eq] at h
  rcases h with rfl | rfl | rfl | rfl | rfl | rfl | rfl | rfl | rfl | rfl <;> decide

theorem isWordStart_of_isDigit (h : x.isDigit) : isWordStart x = false := by
  simp [isWordStart, isLower_of_isDigit h, isUpperStart_of_isDigit h]

theorem Starts.exists_word (h : t.Starts x) (hx : isWordStart x) : ∃ c cs, t = word c cs := by
  have hnumber : ¬ (x.isDigit ∨ x = '-') := by
    rintro (hd | rfl)
    · simp [isWordStart_of_isDigit hd] at hx
    · revert hx; decide
  cases t with
  | word c cs => exact ⟨c, cs, rfl⟩
  | integer _ _ => exact (hnumber h).elim
  | float _ _ _ => exact (hnumber h).elim
  | quoted _ =>
    have hquote : isWordStart '"' = false := by decide
    rw [Starts] at h
    simp [h, hquote] at hx
  | mark s => simp [(isMarkStart_cases h).1] at hx

theorem stringValue_quoted (inner : List Char) :
    stringValue (String.ofList ('"' :: inner ++ ['"'])) = String.ofList (Text.decode inner) := by
  simp [stringValue]

theorem nameScan_text (h : t.isSpelled) (hr : t.Apart r) :
    nameScan (t.text ++ r) = t.name?.map fun n => (n, t.text.length) := by
  obtain ⟨x, xs, htext, hx⟩ := text_cons h
  by_cases hlower : x.isLower
  · obtain ⟨c, cs, rfl⟩ := hx.exists_word (by simp [isWordStart, hlower])
    cases htext
    simp only [isSpelled, Bool.and_eq_true] at h
    rw [text, nameScan, textScan, nameLength?_append _ _ h.2 hr]
    simp [name?, hlower]
  · have hname : t.name? = none := by
      cases t with
      | word c cs => cases htext; simp [name?, hlower]
      | _ => rfl
    rw [htext, hname]
    simp [nameScan, textScan, nameLength?, hlower]

/-- A word is found only where it stands by itself. -/
theorem eq_of_wordScan (hs : s ∈ words) (h : t.isSpelled) (hr : t.Apart r)
    (hstarts : s.toList <+: t.text ++ r) (hclosed : Closed ((t.text ++ r).drop s.length)) :
    t.text = s.toList := by
  have hword : ∀ s ∈ words, (s.toList.all isNameChar && s.toList.head?.any Char.isLower) =
      true := by decide
  obtain ⟨hchars, hlower⟩ := Bool.and_eq_true_iff.mp (hword s hs)
  obtain ⟨x, xs, htext, hx⟩ := text_cons h
  obtain ⟨r', hr'⟩ := hstarts
  have hdrop : (t.text ++ r).drop s.length = r' := by
    rw [← hr', ← String.length_toList, List.drop_left]
  cases hsl : s.toList with
  | nil => simp [hsl] at hlower
  | cons y ys =>
    have hy : y = x := by
      rw [hsl, htext] at hr'
      exact (List.cons.inj hr').1
    have hxl : x.isLower := by simpa [hsl, hy] using hlower
    obtain ⟨c, cs, rfl⟩ := hx.exists_word (by simp [isWordStart, hxl])
    have hnames : (c :: cs).all isNameChar := by
      simp only [isSpelled, Bool.and_eq_true] at h
      cases htext
      simp [h.2, isNameChar_of_isLower hxl]
    have hleft : (c :: cs ++ r).takeWhile isNameChar = c :: cs :=
      takeWhile_closed (by simpa using hnames) hr
    have hright : (s.toList ++ r').takeWhile isNameChar = s.toList :=
      takeWhile_closed (by simpa using hchars) (hdrop ▸ hclosed)
    rw [← hsl, ← hright, hr']
    exact hleft.symm

theorem wordScan_text (hs : s ∈ words) (h : t.isSpelled) (hr : t.Apart r) :
    wordScan s (t.text ++ r) = if t.text = s.toList then some ((), s.length) else none := by
  unfold wordScan
  by_cases heq : t.text = s.toList
  · have hword : ∀ s ∈ words, s.toList.head?.any Char.isLower := by decide
    have hlower := hword s hs
    obtain ⟨x, xs, htext, hx⟩ := text_cons h
    rw [← heq, htext] at hlower
    have hxl : x.isLower := by simpa using hlower
    obtain ⟨c, cs, rfl⟩ := hx.exists_word (by simp [isWordStart, hxl])
    have hdrop : ((word c cs).text ++ r).drop s.length = r := by
      rw [heq, ← String.length_toList, List.drop_left]
    rw [hdrop, if_pos heq, if_pos ⟨by simp [heq], hr⟩]
  · rw [if_neg heq, if_neg]
    rintro ⟨hstarts, hclosed⟩
    exact heq (eq_of_wordScan hs h hr (List.isPrefixOf_iff_prefix.mp hstarts) hclosed)

/-- No two tokens start with the same mark, comparisons apart. -/
theorem eq_of_markScan (hs : s ∈ marks) (h : t.isSpelled) (hstarts : s.toList <+: t.text ++ r) :
    t.text = s.toList := by
  have hdistinct : ∀ s ∈ marks, ∀ s' ∈ marks ++ comparators, s'.toList.head? = s.toList.head? →
      s' = s := by decide
  obtain ⟨x, xs, htext, hx⟩ := text_cons h
  obtain ⟨y, ys, hsl, hy, harrow⟩ := mark_cons (List.mem_append_left comparators hs)
  obtain ⟨r', hr'⟩ := hstarts
  rw [hsl, htext] at hr'
  obtain ⟨rfl, htail⟩ := List.cons.inj hr'
  obtain ⟨hword, hdigit, hquote, _⟩ := isMarkStart_cases hy
  have hnumber : ∀ (negative : Bool) (ds es : List Char), isDigits ds →
      minus negative ++ ds ++ es ≠ y :: xs := by
    intro negative ds es hds heq
    obtain ⟨d, ds, rfl, hd⟩ := isDigits_cons hds
    cases negative with
    | false =>
      obtain ⟨rfl, _⟩ := List.cons.inj heq
      simp [hdigit] at hd
    | true =>
      -- a digit after the minus sign is not the rest of an arrow
      obtain ⟨rfl, hxs⟩ := List.cons.inj heq
      rw [← hxs, harrow rfl] at htail
      obtain ⟨rfl, _⟩ := List.cons.inj htail
      revert hd
      decide
  cases t with
  | word c cs => simp [Starts, hword] at hx
  | integer negative ds =>
    exact (hnumber negative ds [] h (by rw [List.append_nil]; exact htext)).elim
  | float negative ds es =>
    simp only [isSpelled, Bool.and_eq_true] at h
    exact (hnumber negative ds _ h.1 htext).elim
  | quoted inner => exact (hquote hx).elim
  | mark s' =>
    have hsame : s' = s :=
      hdistinct s hs s' (of_decide_eq_true h)
        (by rw [hsl, show s'.toList = y :: xs from htext]; rfl)
    rw [hsame, text]

theorem markScan_text (hs : s ∈ marks) (h : t.isSpelled) :
    markScan s (t.text ++ r) = if t.text = s.toList then some ((), s.length) else none := by
  unfold markScan
  by_cases heq : t.text = s.toList
  · simp [heq]
  · rw [if_neg heq, if_neg]
    intro hstarts
    exact heq (eq_of_markScan hs h (List.isPrefixOf_iff_prefix.mp hstarts))

theorem Starts.ne_point (h : t.Starts x) : x ≠ '.' := by
  rintro rfl
  cases t with
  | word _ _ => change isWordStart '.' at h; revert h; decide
  | integer _ _ => change '.'.isDigit ∨ '.' = '-' at h; revert h; decide
  | float _ _ _ => change '.'.isDigit ∨ '.' = '-' at h; revert h; decide
  | quoted _ => change '.' = '"' at h; revert h; decide
  | mark _ => exact (isMarkStart_cases h).2.2.2 rfl

theorem Starts.ne_quote (h : t.Starts x) (hstring : t.string? = none) : x ≠ '"' := by
  rintro rfl
  cases t with
  | word _ _ => change isWordStart '"' at h; revert h; decide
  | integer _ _ => change '"'.isDigit ∨ '"' = '-' at h; revert h; decide
  | float _ _ _ => change '"'.isDigit ∨ '"' = '-' at h; revert h; decide
  | quoted _ => cases hstring
  | mark _ => exact (isMarkStart_cases h).2.2.1 rfl

theorem textScan_append {measure : List Char → Option Nat} {cs : List Char}
    (h : measure (cs ++ r) = some cs.length) :
    textScan measure (cs ++ r) = some (String.ofList cs, cs.length) := by
  simp [textScan, h]

theorem integerLength?_text (negative : Bool) (h : isDigits ds) (hr : Undigited r) :
    integerLength? ((integer negative ds).text ++ r) = some (integer negative ds).text.length := by
  simpa [text] using integerLength?_append negative h hr

theorem floatLength?_text (negative : Bool) {es : List Char} (hds : isDigits ds) (hes : isDigits es)
    (hr : Undigited r) :
    floatLength? ((float negative ds es).text ++ r) = some (float negative ds es).text.length := by
  rw [text, floatLength?_append negative hds hes hr]
  simp
  omega

theorem stringLength?_text {inner : List Char} (h : isInner inner) :
    stringLength? ((quoted inner).text ++ r) = some (quoted inner).text.length := by
  simpa [text] using stringLength?_append (r := r) h

theorem quotedScan_text (h : t.isSpelled) :
    quotedScan (t.text ++ r) = t.string?.map fun s => (s, t.text.length) := by
  obtain ⟨x, xs, htext, hx⟩ := text_cons h
  cases hstring : t.string? with
  | none => simp [quotedScan, textScan, htext, stringLength?_none (hx.ne_quote hstring)]
  | some s =>
    cases t with
    | quoted inner =>
      cases hstring
      rw [quotedScan, textScan_append (stringLength?_text h), text]
      simp only [Option.map_some, stringValue_quoted]
    | _ => cases hstring

def isComparatorStart (c : Char) : Bool := c ∈ ['=', '!', '<', '>']

theorem comparatorScan_none (h : isComparatorStart x = false) (cs : List Char) :
    comparatorScan (x :: cs) = none := by
  have hone : ∀ k, symbolScan k (x :: cs) = none := by
    intro k
    have hstart : ∀ k : Comparator, ∃ y ys, k.symbol.toList = y :: ys ∧ isComparatorStart y := by
      intro k
      cases k <;> exact ⟨_, _, rfl, by decide⟩
    obtain ⟨y, ys, hk, hy⟩ := hstart k
    have hne : y ≠ x := by
      rintro rfl
      simp [h] at hy
    simp [symbolScan, hk, hne]
  simp [comparatorScan, hone]

theorem comparatorScan_mark (hs : s ∈ comparators) (hr : (mark s).Apart r) :
    comparatorScan (s.toList ++ r) =
      (Comparator.ofSymbol? s).map fun k => (k, s.toList.length) := by
  have hnext : s ∈ ["<", ">"] → ∀ cs, r ≠ '=' :: cs := by
    rintro hs cs rfl
    exact hr hs rfl
  simp only [comparators, Comparator.all, List.map_cons, List.map_nil, List.mem_cons,
    List.not_mem_nil, or_false] at hs
  rcases hs with rfl | rfl | rfl | rfl | rfl | rfl
  · rfl
  · rfl
  · cases r with
    | nil => rfl
    | cons x xs =>
      have hx : '=' ≠ x := by
        rintro rfl
        exact hnext (by decide) xs rfl
      simp [comparatorScan, symbolScan, Comparator.symbol, Comparator.ofSymbol?, Comparator.all, hx]
      rfl
  · rfl
  · cases r with
    | nil => rfl
    | cons x xs =>
      have hx : '=' ≠ x := by
        rintro rfl
        exact hnext (by decide) xs rfl
      simp [comparatorScan, symbolScan, Comparator.symbol, Comparator.ofSymbol?, Comparator.all, hx]
      rfl
  · rfl

theorem Starts.not_isComparatorStart (h : t.Starts x) (ht : ∀ s, t ≠ mark s) :
    isComparatorStart x = false := by
  have hword : ∀ x, isComparatorStart x → isWordStart x = false ∧
      ¬ (x.isDigit ∨ x = '-') ∧ x ≠ '"' := by
    intro x hx
    simp only [isComparatorStart, List.mem_cons, List.not_mem_nil, or_false,
      decide_eq_true_eq] at hx
    rcases hx with rfl | rfl | rfl | rfl <;> decide
  by_contra hx
  obtain ⟨hword, hnumber, hquote⟩ := hword x (by simpa using hx)
  cases t with
  | word _ _ => simp [Starts, hword] at h
  | integer _ _ => exact hnumber h
  | float _ _ _ => exact hnumber h
  | quoted _ => exact hquote h
  | mark s => exact ht s rfl

theorem comparatorScan_text (h : t.isSpelled) (hr : t.Apart r) :
    comparatorScan (t.text ++ r) = t.comparator?.map fun k => (k, t.text.length) := by
  obtain ⟨x, xs, htext, hx⟩ := text_cons h
  by_cases hmark : ∃ s ∈ comparators, t = mark s
  · obtain ⟨s, hs, rfl⟩ := hmark
    exact comparatorScan_mark hs hr
  · have hnone : t.comparator? = none ∧ isComparatorStart x = false := by
      cases t with
      | mark s =>
        have hs : s ∈ marks := by
          have hmem := of_decide_eq_true h
          simp only [List.mem_append] at hmem
          exact hmem.resolve_right fun hs => hmark ⟨s, hs, rfl⟩
        have hmarks : ∀ s ∈ marks, Comparator.ofSymbol? s = none ∧
            s.toList.head?.all (!isComparatorStart ·) := by decide
        obtain ⟨hsymbol, hfirst⟩ := hmarks s hs
        rw [show s.toList = x :: xs from htext] at hfirst
        exact ⟨hsymbol, by simpa using hfirst⟩
      | word _ _ => exact ⟨rfl, hx.not_isComparatorStart (by simp)⟩
      | integer _ _ => exact ⟨rfl, hx.not_isComparatorStart (by simp)⟩
      | float _ _ _ => exact ⟨rfl, hx.not_isComparatorStart (by simp)⟩
      | quoted _ => exact ⟨rfl, hx.not_isComparatorStart (by simp)⟩
    rw [htext, hnone.1, List.cons_append, comparatorScan_none hnone.2]
    rfl

section Kinds

variable {measure : List Char → Option Nat} {kind : String → ArgKind} {cs : List Char}

theorem kindScan_none (h : measure cs = none) :
    kindScan measure kind cs = none := by simp [kindScan, textScan, h]

theorem kindScan_append (h : measure (cs ++ r) = some cs.length) :
    kindScan measure kind (cs ++ r) =
      some ((kind (String.ofList cs), String.ofList cs), cs.length) := by
  simp [kindScan, textScan_append h]

theorem argScan_word (c : Char) (hcs : cs.all isNameChar) (hc : isWordStart c) (hr : Closed r) :
    argScan ((word c cs).text ++ r) =
      (word c cs).arg?.map fun k => ((k, String.ofList (c :: cs)), (c :: cs).length) := by
  have hdigit := isDigit_of_isWordStart hc
  have hminus : c ≠ '-' := by rintro rfl; revert hc; decide
  have hquote : c ≠ '"' := by rintro rfl; revert hc; decide
  have hint : integerLength? (c :: cs ++ r) = none := integerLength?_none hminus hdigit
  have hstring : stringLength? (c :: cs ++ r) = none := stringLength?_none hquote
  have hvar := nameLength?_append isUpperStart c hcs hr
  have hname := nameLength?_append Char.isLower c hcs hr
  unfold argScan
  rw [text, kindScan_none (floatLength?_none hint), kindScan_none hint, kindScan_none hstring]
  simp only [Option.none_or]
  by_cases hlower : c.isLower
  · have hwild : c ≠ '_' := by rintro rfl; revert hlower; decide
    have hnone : wildcardLength? (c :: cs ++ r) = none := wildcardLength?_none hwild
    rw [if_neg (by simp [isUpperStart_of_isLower hlower])] at hvar
    rw [if_pos hlower] at hname
    rw [kindScan_none hnone, kindScan_none hvar, kindScan_append hname]
    simp [arg?, hlower]
  · have hupper : isUpperStart c := by simpa [isWordStart, hlower] using hc
    rw [if_pos hupper] at hvar
    rw [kindScan_append hvar]
    by_cases hwild : c = '_' ∧ cs = []
    · obtain ⟨rfl, rfl⟩ := hwild
      have hone : wildcardLength? ('_' :: [] ++ r) = some 1 := by
        cases r with
        | nil => rfl
        | cons x xs => simp [wildcardLength?, hr x rfl]
      rw [kindScan_append hone]
      rfl
    · have hnone : wildcardLength? (c :: cs ++ r) = none := by
        by_cases hc : c = '_'
        · subst hc
          cases cs with
          | nil => exact (hwild ⟨rfl, rfl⟩).elim
          | cons x xs => simp_all [wildcardLength?]
        · exact wildcardLength?_none hc
      rw [kindScan_none hnone]
      simp [arg?, hlower, hwild]

theorem argScan_mark {s : String} (hs : s ∈ marks ++ comparators) :
    argScan (s.toList ++ r) = none := by
  obtain ⟨x, xs, hsl, hx, harrow⟩ := mark_cons hs
  obtain ⟨hword, hdigit, hquote, _⟩ := isMarkStart_cases hx
  simp only [isWordStart, Bool.or_eq_false_iff] at hword
  have hwild : x ≠ '_' := by rintro rfl; revert hx; decide
  have hint : integerLength? (x :: xs ++ r) = none := by
    by_cases hminus : x = '-'
    · subst hminus
      rw [harrow rfl]
      rfl
    · exact integerLength?_none hminus hdigit
  have hstring : stringLength? (x :: xs ++ r) = none := stringLength?_none hquote
  have hwildcard : wildcardLength? (x :: xs ++ r) = none := wildcardLength?_none hwild
  unfold argScan
  rw [hsl, kindScan_none (floatLength?_none hint), kindScan_none hint, kindScan_none hstring,
    kindScan_none hwildcard, kindScan_none (by simp [nameLength?, hword.2]),
    kindScan_none (by simp [nameLength?, hword.1])]
  rfl

end Kinds

theorem argScan_text (h : t.isSpelled) (hr : t.Apart r) :
    argScan (t.text ++ r) = t.arg?.map fun k => ((k, String.ofList t.text), t.text.length) := by
  cases t with
  | word c cs =>
    simp only [isSpelled, Bool.and_eq_true] at h
    exact argScan_word c h.2 h.1 hr
  | integer negative ds =>
    have hfloat : floatLength? ((integer negative ds).text ++ r) = none :=
      floatLength?_integer negative h hr.1 hr.2
    unfold argScan
    rw [kindScan_none hfloat, kindScan_append (integerLength?_text negative h hr.1)]
    rfl
  | float negative ds es =>
    simp only [isSpelled, Bool.and_eq_true] at h
    unfold argScan
    rw [kindScan_append (floatLength?_text negative h.1 h.2 hr)]
    rfl
  | quoted inner =>
    have hint : integerLength? ((quoted inner).text ++ r) = none := rfl
    unfold argScan
    rw [kindScan_none (floatLength?_none hint), kindScan_none hint,
      kindScan_append (stringLength?_text h), text, stringValue_quoted]
    rfl
  | mark s => exact argScan_mark (of_decide_eq_true h)

end Token

end GraphRules.Script
