import GraphRules.Number.Layout
import GraphRules.Proofs.Decimals
import GraphRules.Proofs.ShortestDecimals

/-! Numbers as text. A whole number, and a number whose first digit stands near the point, read back
as themselves. -/
namespace GraphRules

open Script (isDigits minus intValue)

section Digits

theorem digitsValue_toDigits (n : Nat) : digitsValue (Nat.toDigits 10 n) = n :=
  Nat.ofDigitChars_toDigits (by decide) (by decide)

theorem digitsValue_zeros_append (n : Nat) (cs : List Char) :
    digitsValue (List.replicate n '0' ++ cs) = digitsValue cs := by
  have hzeros : Nat.ofDigitChars 10 (List.replicate n '0') 0 = 0 := Nat.ofDigitChars_replicate_zero
  change Nat.ofDigitChars 10 (List.replicate n '0' ++ cs) 0 = _
  rw [Nat.ofDigitChars_append, hzeros]
  rfl

theorem digitsValue_append_zeros (cs : List Char) (n : Nat) :
    digitsValue (cs ++ List.replicate n '0') = digitsValue cs * 10 ^ n := by
  change Nat.ofDigitChars 10 (cs ++ List.replicate n '0') 0 = _
  rw [Nat.ofDigitChars_append, Nat.ofDigitChars_replicate_zero, Nat.mul_comm]
  rfl

theorem isDigits_of_forall {cs : List Char} (hne : cs ≠ []) (h : ∀ c ∈ cs, c.isDigit) :
    isDigits cs := by
  simp [isDigits, hne]
  exact h

theorem forall_toDigits (n : Nat) : ∀ c ∈ Nat.toDigits 10 n, c.isDigit :=
  fun _ => Nat.isDigit_of_mem_toDigits (by decide) (by decide)

theorem toDigits_ne_nil (n : Nat) : Nat.toDigits 10 n ≠ [] :=
  List.ne_nil_of_length_pos Nat.length_toDigits_pos

end Digits

theorem toString_int (n : Int) :
    (toString n).toList = minus (decide (n < 0)) ++ Nat.toDigits 10 n.natAbs := by
  rw [Int.toString_eq_repr, Int.repr_eq_if]
  by_cases h : 0 ≤ n
  · have hneg : ¬ n < 0 := by omega
    have habs : n.toNat = n.natAbs := by omega
    simp [h, hneg, habs, minus, Nat.toList_repr]
  · have hneg : n < 0 := by omega
    have habs : (-n).toNat = n.natAbs := by omega
    simp [h, hneg, habs, minus, Nat.toList_repr]

theorem intValue_toString (n : Int) : intValue (toString n) = n := by
  have hdigits := isDigits_of_forall (toDigits_ne_nil n.natAbs) (forall_toDigits n.natAbs)
  have hsplit := splitSign_minus (decide (n < 0)) hdigits []
  rw [List.append_nil, List.append_nil] at hsplit
  simp only [intValue, toString_int, hsplit, digitsValue_toDigits, signed, decide_eq_true_eq]
  split
  · omega
  · omega

structure Decimal.Shown (d : Decimal) (ds es : List Char) : Prop where
  whole : isDigits ds
  fraction : isDigits es
  value : ∃ j : Nat, digitsValue (ds ++ es) = d.digits * 10 ^ j ∧ (es.length : Int) = j - d.exponent

theorem Layout.placePoint_shown {d : Decimal} (hd : 0 < d.digits) :
    ∃ ds es, Layout.placePoint true d.text (d.leading + 1) = ds ++ '.' :: es ∧ d.Shown ds es := by
  have hlength : d.text.length = Binary64.digitCount d.digits :=
    (Binary64.digitCount_of_pos hd).symm
  have hdigits : ∀ c ∈ d.text, c.isDigit := forall_toDigits d.digits
  have hne : d.text ≠ [] := toDigits_ne_nil d.digits
  have hpos : 0 < d.text.length := List.length_pos_of_ne_nil hne
  have hvalue : digitsValue d.text = d.digits := digitsValue_toDigits d.digits
  have hplace : d.leading + 1 = d.exponent + d.text.length := by
    rw [hlength, Decimal.leading]
    omega
  have hzeros : ∀ n, ∀ c ∈ List.replicate n '0', c.isDigit := by
    intro n c hc
    rw [List.eq_of_mem_replicate hc]
    rfl
  rw [hplace]
  unfold Layout.placePoint
  dsimp only
  split
  · refine ⟨['0'], _, rfl, rfl, isDigits_of_forall (by simp [hne]) ?_, 0, ?_, ?_⟩
    · exact fun c hc => (List.mem_append.mp hc).elim (hzeros _ c) (hdigits c)
    · rw [← List.append_assoc, List.singleton_append, ← List.replicate_succ,
        digitsValue_zeros_append, hvalue, Nat.pow_zero, Nat.mul_one]
    · rw [List.length_append, List.length_replicate]
      omega
  · obtain ⟨n, hn⟩ : ∃ n, n = (d.exponent + d.text.length).toNat := ⟨_, rfl⟩
    rw [← hn]
    split
    · -- all digits stand before the point
      rename_i hdrop
      have hle : d.text.length ≤ n := List.drop_eq_nil_iff.mp hdrop
      rw [List.take_of_length_le hle, if_pos rfl]
      refine ⟨_, ['0'], rfl, isDigits_of_forall (by simp [hne]) ?_, rfl,
        n - d.text.length + 1, ?_, ?_⟩
      · exact fun c hc => (List.mem_append.mp hc).elim (hdigits c) (hzeros _ c)
      · rw [List.append_assoc, ← List.replicate_succ', digitsValue_append_zeros, hvalue]
      · rw [List.length_singleton]
        omega
    · rename_i hdrop
      have hlt : n < d.text.length := by
        by_contra hle
        exact hdrop (List.drop_eq_nil_iff.mpr (Nat.le_of_not_lt hle))
      rw [Nat.sub_eq_zero_of_le (Nat.le_of_lt hlt), List.replicate_zero, List.append_nil]
      refine ⟨_, _, rfl, isDigits_of_forall ?_ ?_, isDigits_of_forall hdrop ?_, 0, ?_, ?_⟩
      · exact List.ne_nil_of_length_pos (by rw [List.length_take]; omega)
      · exact fun c hc => hdigits c (List.mem_of_mem_take hc)
      · exact fun c hc => hdigits c (List.mem_of_mem_drop hc)
      · rw [List.take_append_drop, hvalue, Nat.pow_zero, Nat.mul_one]
      · rw [List.length_drop]
        omega

namespace Binary64

theorem ofDecimal_of_shown {x : Binary64} (hfinite : x.isFinite) {d : Decimal} {place : Int}
    (hd : d.Fits x place) (hlow : -400 ≤ place) (hhigh : place < 400) {ds es : List Char}
    (h : d.Shown ds es) (negative : Bool) :
    ofDecimal negative (digitsValue (ds ++ es)) (-es.length) = withSign negative x.pattern := by
  obtain ⟨hpos, hrounds, hleading⟩ := hd
  obtain ⟨_, _, j, hvalue, hlength⟩ := h
  have hnear := hrounds es.length j (by omega)
  have hcount : digitCount (d.digits * 10 ^ j) = digitCount d.digits + j :=
    digitCount_mul_pow hpos j
  have hne : d.digits * 10 ^ j ≠ 0 := Nat.ne_of_gt (Nat.mul_pos hpos (Nat.pow_pos (by decide)))
  unfold Decimal.leading at hleading
  have hten : 0 < 10 ^ es.length := Nat.pow_pos (by decide)
  rw [hvalue]
  simp only [ofDecimal, hcount]
  rw [if_neg (by omega), if_neg (by omega)]
  split
  · have hzero : es.length = 0 := by omega
    rw [hzero] at hnear ⊢
    have hone := ofRatio_of_near (by decide) hfinite hnear negative
    simpa using hone
  · rw [Int.neg_neg, Int.toNat_natCast]
    exact ofRatio_of_near hten hfinite hnear negative

def Plain (x : Binary64) : Prop :=
  x.scaled = 0 ∨ 2 ^ unitExponent ≤ x.scaled * 10 ^ 4 ∧ x.scaled < 10 ^ 16 * 2 ^ unitExponent

instance (x : Binary64) : Decidable x.Plain := inferInstanceAs (Decidable (_ ∨ _))

section Plain

variable {x : Binary64}

theorem shift_lt_of_scaled_lt (h : x.scaled < 10 ^ 16 * 2 ^ unitExponent) :
    x.shift < unitExponent + 2 := by
  by_contra hle
  have hle' : unitExponent + 2 ≤ x.shift := Nat.le_of_not_lt hle
  have hsig : 2 ^ 52 ≤ x.significand := x.le_significand (by omega)
  have hpow : 2 ^ unitExponent * 2 ^ 2 ≤ 2 ^ x.shift := by
    rw [← Nat.pow_add]
    exact Nat.pow_le_pow_right (by decide) hle'
  have hmul := Nat.mul_le_mul hsig hpow
  rw [← x.scaled_eq] at hmul
  generalize 2 ^ unitExponent = unit at *
  omega

theorem isFinite_of_shift_lt (h : x.shift < unitExponent + 2) : x.isFinite := by
  have hshift := x.shift_eq
  have hunit : unitExponent = 1074 := rfl
  have hinfinite : infiniteBits = 2047 * 2 ^ 52 := rfl
  refine decide_eq_true ?_
  rw [hinfinite]
  omega

/-- Below a power of ten that is a whole number, the first digit cannot be rounded up to its place.
-/
theorem not_rounds_of_lt (h : x.scaled < 10 ^ 16 * 2 ^ unitExponent) :
    ¬ Decimal.Rounds ⟨1, 16⟩ x := by
  intro hrounds
  have hshift := shift_lt_of_scaled_lt h
  have hhigh := (hrounds 0 16 rfl).high
  have hstep : 0 < 2 ^ x.shift := Nat.two_pow_pos _
  obtain ⟨t, ht⟩ : ∃ t, 10 ^ 16 * 2 ^ unitExponent = t * 2 ^ x.shift := by
    refine ⟨5 ^ 16 * 2 ^ (unitExponent + 16 - x.shift), ?_⟩
    calc 10 ^ 16 * 2 ^ unitExponent = 5 ^ 16 * 2 ^ (unitExponent + 16) := by
          rw [Nat.pow_add]
          ring
      _ = 5 ^ 16 * (2 ^ (unitExponent + 16 - x.shift) * 2 ^ x.shift) := by
          rw [← Nat.pow_add, Nat.sub_add_cancel (by omega)]
      _ = 5 ^ 16 * 2 ^ (unitExponent + 16 - x.shift) * 2 ^ x.shift := (Nat.mul_assoc _ _ _).symm
  simp only [Nat.one_mul, Nat.pow_zero, Nat.mul_one, ht] at hhigh
  rw [ht, x.scaled_eq] at h
  have hnext : (x.significand + 1) * 2 ^ x.shift ≤ t * 2 ^ x.shift :=
    Nat.mul_le_mul_right _ (Nat.lt_of_mul_lt_mul_right h)
  rw [Nat.succ_mul] at hnext
  omega

theorem decimalExponent_of_plain (hx : 0 < x.scaled) (hlow : 2 ^ unitExponent ≤ x.scaled * 10 ^ 4)
    (hhigh : x.scaled < 10 ^ 16 * 2 ^ unitExponent) :
    -4 ≤ x.decimalExponent ∧ x.decimalExponent < 16 := by
  obtain ⟨e, he⟩ : ∃ e, e = x.decimalExponent := ⟨_, rfl⟩
  have hplace := decimalExponent_bounds hx (a := (-e).toNat) (b := e.toNat) (n := 0) (by omega)
  rw [← he]
  constructor
  · by_contra hlt
    obtain ⟨k, hk⟩ : ∃ k, (-e).toNat = 4 + (k + 1) := ⟨(-e).toNat - 5, by omega⟩
    have hb : e.toNat = 0 := by omega
    have hten : 10 ≤ 10 ^ (k + 1) := Nat.le_self_pow (by omega) 10
    have hmul := Nat.mul_le_mul hlow hten
    have habove := hplace.2
    rw [hk, hb, Nat.pow_add 10 4, ← Nat.mul_assoc] at habove
    omega
  · by_contra hlt
    obtain ⟨k, hk⟩ : ∃ k, e.toNat = 16 + k := ⟨e.toNat - 16, by omega⟩
    have ha : (-e).toNat = 0 := by omega
    have hpow : 10 ^ 16 * 2 ^ unitExponent ≤ 10 ^ e.toNat * 2 ^ unitExponent :=
      Nat.mul_le_mul_right _ (Nat.pow_le_pow_right (by decide) (by omega))
    have hbelow := hplace.1
    rw [ha] at hbelow
    omega

/-- The decimal of a number that is neither too small nor too large has its first digit near the
point. -/
theorem shortest_of_plain (hx : 0 < x.scaled) (hlow : 2 ^ unitExponent ≤ x.scaled * 10 ^ 4)
    (hhigh : x.scaled < 10 ^ 16 * 2 ^ unitExponent) (tie : Tie) :
    ∃ place, (x.shortest tie).Fits x place ∧ -4 ≤ place ∧ place < 16 := by
  obtain ⟨hleast, hmost⟩ := decimalExponent_of_plain hx hlow hhigh
  rcases shortest_fits hx tie with h | ⟨h, hpower⟩
  · exact ⟨_, h, hleast, hmost⟩
  · refine ⟨_, h, by omega, ?_⟩
    by_contra hlt
    rw [show x.decimalExponent + 1 = 16 by omega] at hpower
    exact not_rounds_of_lt hhigh hpower

theorem pattern_of_scaled_eq_zero (h : x.scaled = 0) : x.pattern = 0 := by
  rw [x.scaled_eq, Nat.mul_eq_zero] at h
  have hsig : x.significand = 0 := h.resolve_right (Nat.ne_of_gt (Nat.two_pow_pos _))
  have hshift : x.shift = 0 := by
    by_contra hne
    have := x.le_significand (Nat.pos_of_ne_zero hne)
    omega
  rw [x.pattern_eq, hsig, hshift, Nat.zero_mul]

theorem isNaN_of_isFinite (h : x.isFinite) : x.isNaN = false ∧ x.isInfinite = false := by
  have hlt := of_decide_eq_true h
  exact ⟨decide_eq_false (by omega), decide_eq_false (by omega)⟩

theorem render_plain (h : x.Plain) : ∃ ds es, isDigits ds ∧ isDigits es ∧
    (Layout.script.render x).toList = minus x.isNegative ++ ds ++ '.' :: es ∧
    read? (minus x.isNegative ++ ds ++ '.' :: es) = some x := by
  by_cases hzero : x.scaled = 0
  · have hpattern := pattern_of_scaled_eq_zero hzero
    have hfinite : x.isFinite := decide_eq_true (by rw [hpattern]; decide)
    obtain ⟨hnan, hinfinite⟩ := isNaN_of_isFinite hfinite
    refine ⟨['0'], ['0'], rfl, rfl, ?_, ?_⟩
    · unfold Layout.render
      simp [hnan, hinfinite, hzero, minus, Layout.script]
    · rw [read?_decimal _ rfl rfl]
      have hvalue : ofDecimal x.isNegative (digitsValue (['0'] ++ ['0'])) (-(['0'].length : Int)) =
          zero x.isNegative := rfl
      rw [hvalue, zero, ← hpattern, withSign_pattern]
  · obtain ⟨hlow, hhigh⟩ := h.resolve_left hzero
    obtain ⟨place, hfits, hleast, hmost⟩ :=
      shortest_of_plain (Nat.pos_of_ne_zero hzero) hlow hhigh Layout.script.tie
    have hfinite := isFinite_of_shift_lt (shift_lt_of_scaled_lt hhigh)
    obtain ⟨hnan, hinfinite⟩ := isNaN_of_isFinite hfinite
    obtain ⟨ds, es, htext, hshown⟩ := Layout.placePoint_shown hfits.positive
    refine ⟨ds, es, hshown.whole, hshown.fraction, ?_, ?_⟩
    · have hplain : Layout.script.plain (x.shortest Layout.script.tie).leading = true := by
        rw [hfits.leading]
        simp [Layout.script, hleast, hmost]
      have hwrite : Layout.script.write (x.shortest Layout.script.tie) = ds ++ '.' :: es := by
        unfold Layout.write
        rw [if_pos hplain, ← htext]
        rfl
      unfold Layout.render
      simp [hnan, hinfinite, hzero, minus, hwrite]
    · rw [read?_decimal _ hshown.whole hshown.fraction,
        ofDecimal_of_shown hfinite hfits (by omega) (by omega) hshown, withSign_pattern]

end Plain

end Binary64

end GraphRules
