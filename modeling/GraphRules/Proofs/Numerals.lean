import GraphRules.Proofs.NumberTexts

/-! The texts of finite numbers. Digits come with a fraction, with an exponent or with both, and
they read back as the number, however far its first digit stands from the point. -/
namespace GraphRules

open Script (isDigits minus Undigited)

structure Numeral where
  negative : Bool
  whole : List Char
  fraction : List Char
  exponent? : Option Int

namespace Numeral

def tail (n : Numeral) : List Char := (n.exponent?.map (Layout.writeExponent false)).getD []

def suffix (n : Numeral) : List Char :=
  (if n.fraction = [] then [] else '.' :: n.fraction) ++ n.tail

def text (n : Numeral) : List Char := minus n.negative ++ n.whole ++ n.suffix

structure WellFormed (n : Numeral) : Prop where
  whole : isDigits n.whole
  fraction : ∀ c ∈ n.fraction, c.isDigit
  marked : n.fraction ≠ [] ∨ n.exponent?.isSome

def value (n : Numeral) : Binary64 :=
  .ofDecimal n.negative (digitsValue (n.whole ++ n.fraction))
    (n.exponent?.getD 0 - n.fraction.length)

theorem writeExponent_eq (e : Int) :
    Layout.writeExponent false e = 'e' :: (minus (decide (e < 0)) ++ Nat.toDigits 10 e.natAbs) := by
  simp [Layout.writeExponent, minus]

theorem undigited_tail (n : Numeral) : Undigited n.tail := by
  unfold tail
  cases n.exponent? with
  | none => simp [Undigited]
  | some e => simp [Undigited, Layout.writeExponent]

theorem readExponent?_tail (n : Numeral) :
    Binary64.readExponent? n.tail = some (n.exponent?.getD 0) := by
  unfold tail
  cases n.exponent? with
  | none => rfl
  | some e =>
    have hdigits := isDigits_of_forall (toDigits_ne_nil e.natAbs) (forall_toDigits e.natAbs)
    have hsplit := splitSign_minus (decide (e < 0)) hdigits []
    rw [List.append_nil, List.append_nil] at hsplit
    have hall : (Nat.toDigits 10 e.natAbs).all Char.isDigit :=
      List.all_eq_true.mpr (forall_toDigits _)
    have hvalue : signed (decide (e < 0)) e.natAbs = e := by
      unfold signed
      split_ifs with hneg
      · have := of_decide_eq_true hneg
        omega
      · have := of_decide_eq_false (Bool.eq_false_iff.mpr hneg)
        omega
    rw [Option.map_some, Option.getD_some, writeExponent_eq, Binary64.readExponent?, hsplit]
    simp [hall, digitsValue_toDigits, hvalue]

variable {n : Numeral}

theorem read?_text (h : n.WellFormed) : Binary64.read? n.text = some n.value := by
  have hne : n.whole ≠ [] := by
    intro hnil
    have hwhole := h.whole
    rw [hnil] at hwhole
    cases hwhole
  have hmagnitude : Binary64.readMagnitude? n.negative (n.whole ++ n.suffix) = some n.value := by
    unfold Binary64.readMagnitude? suffix
    by_cases hfraction : n.fraction = []
    · obtain ⟨e, he⟩ := Option.isSome_iff_exists.mp (h.marked.resolve_left (not_not.mpr hfraction))
      obtain ⟨cs, htail⟩ : ∃ cs, n.tail = 'e' :: cs := ⟨_, by rw [tail, he]; rfl⟩
      have hwhole := splitDigits_append (forall_isDigit h.whole) n.undigited_tail
      have hexponent := n.readExponent?_tail
      rw [htail] at hwhole hexponent
      simp only [hfraction, if_true, List.nil_append, htail, hwhole, value]
      simp [hne, -Option.map_eq_some_iff, hexponent]
    · have hwhole : splitDigits (n.whole ++ '.' :: (n.fraction ++ n.tail)) =
          (n.whole, '.' :: (n.fraction ++ n.tail)) :=
        splitDigits_append (forall_isDigit h.whole) (by simp [Undigited])
      have hrest := splitDigits_append h.fraction n.undigited_tail
      simp only [hfraction, if_false, List.cons_append, hwhole, hrest, readExponent?_tail, value]
      simp [hne]
  unfold text Binary64.read?
  simp only [splitSign_minus n.negative h.whole]
  split
  · exact (lower_ne h.whole _ (s := "inf") (by decide) ‹_›).elim
  · exact (lower_ne h.whole _ (s := "infinity") (by decide) ‹_›).elim
  · exact (lower_ne h.whole _ (s := "nan") (by decide) ‹_›).elim
  · exact hmagnitude

def isChar (c : Char) : Bool := c.isDigit || c = '.' || c = 'e' || c = '-'

theorem isChar_of_isDigit {c : Char} (h : c.isDigit) : isChar c := by simp [isChar, h]

theorem isChar_minus (negative : Bool) : ∀ c ∈ minus negative, isChar c := by
  cases negative with
  | false => simp [minus]
  | true => simp [minus, isChar]

theorem isChar_suffix (h : n.WellFormed) : ∀ c ∈ n.suffix, isChar c := by
  intro c hc
  rcases List.mem_append.mp hc with hc | hc
  · split_ifs at hc
    · cases hc
    · rcases List.mem_cons.mp hc with rfl | hc
      · rfl
      · exact isChar_of_isDigit (h.fraction c hc)
  · unfold tail at hc
    cases hexponent : n.exponent? with
    | none => simp [hexponent] at hc
    | some e =>
      rw [hexponent, Option.map_some, Option.getD_some, writeExponent_eq] at hc
      rcases List.mem_cons.mp hc with rfl | hc
      · rfl
      rcases List.mem_append.mp hc with hc | hc
      · exact isChar_minus _ c hc
      · exact isChar_of_isDigit (forall_toDigits _ c hc)

theorem mark_suffix (h : n.WellFormed) : n.suffix.any fun c => c = '.' || c = 'e' := by
  unfold suffix
  by_cases hfraction : n.fraction = []
  · obtain ⟨e, he⟩ := Option.isSome_iff_exists.mp (h.marked.resolve_left (not_not.mpr hfraction))
    simp [hfraction, tail, he, Layout.writeExponent]
  · simp [hfraction]

end Numeral

namespace Binary64

variable {x : Binary64} {d : Decimal} {place : Int}

theorem ofDecimal_of_fits (hfinite : x.isFinite) (hd : d.Fits x place) (hlow : -400 ≤ place)
    (hhigh : place < 400) (negative : Bool) :
    ofDecimal negative d.digits d.exponent = withSign negative x.pattern := by
  obtain ⟨hpos, hrounds, hleading⟩ := hd
  unfold Decimal.leading at hleading
  unfold ofDecimal
  dsimp only
  rw [if_neg (by omega), if_neg (by omega)]
  split_ifs with hexponent
  · have hnear := hrounds 0 d.exponent.toNat (by omega)
    exact ofRatio_of_near (by decide) hfinite (by simpa using hnear) negative
  · have hnear := hrounds (-d.exponent).toNat 0 (by omega)
    exact ofRatio_of_near (Nat.pow_pos (by decide)) hfinite (by simpa using hnear) negative

theorem mul_two_pow_lt {s t m u : Nat} (hs : s < 2 ^ 53) (ht : t ≤ 3 * m + u) :
    s * 2 ^ t < 10 ^ (18 + m) * 2 ^ u := by
  have height : 2 ^ (3 * m) ≤ 10 ^ m := by
    rw [Nat.pow_mul]
    exact Nat.pow_le_pow_left (by decide) m
  calc s * 2 ^ t < 2 ^ 53 * 2 ^ t := Nat.mul_lt_mul_of_pos_right hs (Nat.two_pow_pos _)
    _ ≤ 10 ^ 18 * 2 ^ (3 * m + u) :=
      Nat.mul_le_mul (by decide) (Nat.pow_le_pow_right (by decide) ht)
    _ = 10 ^ 18 * (2 ^ (3 * m) * 2 ^ u) := by rw [Nat.pow_add]
    _ ≤ 10 ^ 18 * (10 ^ m * 2 ^ u) := Nat.mul_le_mul_left _ (Nat.mul_le_mul_right _ height)
    _ = 10 ^ (18 + m) * 2 ^ u := by rw [← Nat.mul_assoc, ← Nat.pow_add]

theorem digitCount_shifted {s u a : Nat} (h : s < 10 ^ a * 2 ^ u) (k : Nat) :
    digitCount ((s * Nat.pow 10 k) >>> u) ≤ a + k := by
  refine digitCount_le ?_
  rw [Nat.shiftRight_eq_div_pow, Nat.div_lt_iff_lt_mul (Nat.two_pow_pos _),
    Nat.pow_add, Nat.mul_right_comm]
  exact Nat.mul_lt_mul_of_pos_right h (Nat.pow_pos (by decide))

/-- Finite numbers have their first digit less than 400 places from the point. -/
theorem decimalExponent_lt (h : x.isFinite) : x.decimalExponent < 399 := by
  have hshift : x.shift ≤ 3 * 324 + unitExponent := by
    have hpattern := of_decide_eq_true h
    have hinfinite : infiniteBits = 2047 * 2 ^ 52 := rfl
    have hunit : unitExponent = 1074 := rfl
    have := x.shift_eq
    omega
  have hscaled := mul_two_pow_lt x.significand_lt hshift
  rw [← x.scaled_eq] at hscaled
  have hcount := digitCount_shifted hscaled 340
  unfold decimalExponent
  omega

theorem neg_le_decimalExponent : -341 ≤ x.decimalExponent := by
  unfold decimalExponent
  omega

theorem exists_cons_text (d : Decimal) :
    ∃ c cs, d.text = c :: cs ∧ c.isDigit ∧ ∀ c' ∈ cs, c'.isDigit := by
  have hdigits := forall_toDigits d.digits
  obtain ⟨c, cs, htext⟩ := List.exists_cons_of_ne_nil (toDigits_ne_nil d.digits)
  rw [htext] at hdigits
  exact ⟨c, cs, htext, hdigits c (List.mem_cons_self ..), fun c' hc' =>
    hdigits c' (List.mem_cons_of_mem _ hc')⟩

/-- The text of a decimal that lies at a number is a numeral for the number. -/
theorem write_numeral (hfinite : x.isFinite) (hd : d.Fits x place) (hlow : -400 ≤ place)
    (hhigh : place < 400) :
    ∃ n : Numeral, n.WellFormed ∧ minus x.isNegative ++ Layout.script.write d = n.text ∧
      n.value = x := by
  unfold Layout.write
  by_cases hplain : Layout.script.plain d.leading = true
  · obtain ⟨ds, es, htext, hshown⟩ := Layout.placePoint_shown hd.positive
    have hne : es ≠ [] := by
      rintro rfl
      cases hshown.fraction
    refine ⟨⟨x.isNegative, ds, es, none⟩, ⟨hshown.whole, forall_isDigit hshown.fraction, .inl hne⟩,
      ?_, ?_⟩
    · have hkeep : Layout.script.keepPoint = true := rfl
      simp [hplain, hkeep, htext, Numeral.text, Numeral.suffix, Numeral.tail, hne]
    · have hvalue := ofDecimal_of_shown hfinite hd hlow hhigh hshown x.isNegative
      rw [withSign_pattern] at hvalue
      simpa [Numeral.value] using hvalue
  · obtain ⟨c, cs, htext, hc, hcs⟩ := exists_cons_text d
    have hlength : (cs.length : Int) + 1 = digitCount d.digits := by
      rw [digitCount_of_pos hd.positive, show Nat.toDigits 10 d.digits = c :: cs from htext,
        List.length_cons]
      rfl
    have hexponent : d.leading - cs.length = d.exponent := by
      unfold Decimal.leading
      omega
    refine ⟨⟨x.isNegative, [c], cs, some d.leading⟩, ⟨?_, hcs, .inr rfl⟩, ?_, ?_⟩
    · simp [isDigits, hc]
    · have hunsigned : Layout.script.signedExponent = false := rfl
      cases cs with
      | nil => simp [hplain, hunsigned, htext, Numeral.text, Numeral.suffix, Numeral.tail]
      | cons c' cs => simp [hplain, hunsigned, htext, Numeral.text, Numeral.suffix, Numeral.tail]
    · have hvalue := ofDecimal_of_fits hfinite hd hlow hhigh x.isNegative
      rw [withSign_pattern, ← hexponent, ← digitsValue_toDigits d.digits] at hvalue
      rw [show Nat.toDigits 10 d.digits = c :: cs from htext] at hvalue
      exact hvalue

/-- The text of a finite number is a numeral for it. -/
theorem render_numeral (h : x.isFinite) :
    ∃ n : Numeral, n.WellFormed ∧ (Layout.script.render x).toList = n.text ∧ n.value = x := by
  obtain ⟨hnan, hinfinite⟩ := isNaN_of_isFinite h
  unfold Layout.render
  by_cases hzero : x.scaled = 0
  · refine ⟨⟨x.isNegative, ['0'], ['0'], none⟩, ⟨rfl, by simp, .inl (by simp)⟩, ?_, ?_⟩
    · simp [hnan, hinfinite, hzero, minus, Layout.script, Numeral.text,
        Numeral.suffix, Numeral.tail]
    · have hvalue : ofDecimal x.isNegative (digitsValue (['0'] ++ ['0']))
          (0 - (['0'].length : Int)) = zero x.isNegative := rfl
      change ofDecimal x.isNegative (digitsValue (['0'] ++ ['0'])) (0 - (['0'].length : Int)) = x
      rw [hvalue, zero, ← pattern_of_scaled_eq_zero hzero, withSign_pattern]
  · obtain ⟨place, hfits, hlow, hhigh⟩ : ∃ place, (x.shortest Layout.script.tie).Fits x place ∧
        -400 ≤ place ∧ place < 400 := by
      have hleast := neg_le_decimalExponent (x := x)
      have hmost := decimalExponent_lt h
      rcases shortest_fits (Nat.pos_of_ne_zero hzero) Layout.script.tie with hfits | ⟨hfits, _⟩
      · exact ⟨_, hfits, by omega, by omega⟩
      · exact ⟨_, hfits, by omega, by omega⟩
    obtain ⟨n, hn, htext, hvalue⟩ := write_numeral h hfits hlow hhigh
    refine ⟨n, hn, ?_, hvalue⟩
    rw [← htext]
    simp [hnan, hinfinite, hzero, minus]

theorem isNaN_ofDecimal (negative : Bool) (digits : Nat) (exponent : Int) :
    (ofDecimal negative digits exponent).isNaN = false := by
  unfold ofDecimal
  dsimp only
  split_ifs
  · exact isNaN_withSign negative (Nat.zero_le _)
  · exact isNaN_withSign negative (Nat.le_refl _)
  · exact isNaN_withSign negative (Nat.min_le_left ..)
  · exact isNaN_withSign negative (Nat.min_le_left ..)

end Binary64

end GraphRules
