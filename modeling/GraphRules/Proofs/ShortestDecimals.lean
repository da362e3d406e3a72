import GraphRules.Proofs.Rounding

/-! The shortest decimal of a number. Seventeen digits always suffice, so the search finds a
decimal; the one it finds rounds to the number and has its first digit at the place of the number's
own first digit, or one place above. -/
namespace GraphRules

namespace Binary64

variable {a b k n : Nat}

theorem digitCount_of_pos (hn : 0 < n) : digitCount n = (Nat.toDigits 10 n).length :=
  if_neg (by omega)

theorem lt_pow_digitCount (n : Nat) : n < 10 ^ digitCount n := by
  by_cases hn : n = 0
  · subst hn
    decide
  · rw [digitCount_of_pos (by omega),
      ← Nat.length_toDigits_le_iff (by decide) Nat.length_toDigits_pos]

theorem digitCount_le (h : n < 10 ^ k) : digitCount n ≤ k := by
  by_cases hn : n = 0
  · subst hn
    exact Nat.zero_le k
  · have hk : 0 < k := by
      rcases Nat.eq_zero_or_pos k with rfl | hk
      · omega
      · exact hk
    rw [digitCount_of_pos (by omega)]
    exact (Nat.length_toDigits_le_iff (by decide) hk).mpr h

theorem le_of_lt_digitCount (h : k < digitCount n) : 10 ^ k ≤ n := by
  by_contra hlt
  have := digitCount_le (Nat.lt_of_not_le hlt)
  omega

theorem digitCount_eq (hlow : 10 ^ k ≤ n) (hhigh : n < 10 ^ (k + 1)) : digitCount n = k + 1 := by
  have hle := digitCount_le hhigh
  by_contra hne
  have hpow : 10 ^ digitCount n ≤ 10 ^ k := Nat.pow_le_pow_right (by decide) (by omega)
  have := lt_pow_digitCount n
  omega

theorem digitCount_mul_pow (hn : 0 < n) (k : Nat) : digitCount (n * 10 ^ k) = digitCount n + k := by
  have hpos : 0 < digitCount n := by
    rw [digitCount_of_pos hn]
    exact Nat.length_toDigits_pos
  obtain ⟨c, hc⟩ : ∃ c, digitCount n = c + 1 := ⟨digitCount n - 1, by omega⟩
  have hlow : 10 ^ c ≤ n := le_of_lt_digitCount (by omega)
  have hhigh : n < 10 ^ (c + 1) := hc ▸ lt_pow_digitCount n
  have hten : 0 < 10 ^ k := Nat.pow_pos (by decide)
  rw [hc, digitCount_eq (k := c + k), Nat.add_right_comm]
  · rw [Nat.pow_add]
    exact Nat.mul_le_mul_right _ hlow
  · rw [Nat.add_right_comm, Nat.pow_add]
    exact Nat.mul_lt_mul_of_pos_right hhigh hten

/-- Where the first digit of `s / 2 ^ u` stands, as the digits of a multiple of it by a power of ten
tell. -/
theorem place_bounds {s p u : Nat} (hp : p = 10 ^ k) (hpos : 2 ^ u ≤ s * p)
    (hplace : digitCount (s * p / 2 ^ u) + a = b + n + k + 1) :
    10 ^ n * (10 ^ b * 2 ^ u) ≤ s * 10 ^ a ∧ s * 10 ^ a < 10 ^ (n + 1) * (10 ^ b * 2 ^ u) := by
  subst hp
  have hunit : 0 < 2 ^ u := Nat.two_pow_pos _
  have hten : ∀ j, 0 < 10 ^ j := fun _ => Nat.pow_pos (by decide)
  have hlow := Nat.div_mul_le_self (s * 10 ^ k) (2 ^ u)
  have hhigh := Nat.lt_div_mul_add (a := s * 10 ^ k) hunit
  have hM : 0 < s * 10 ^ k / 2 ^ u := Nat.div_pos hpos hunit
  generalize s * 10 ^ k / 2 ^ u = M at *
  obtain ⟨c, hc⟩ : ∃ c, digitCount M = c + 1 := by
    refine ⟨digitCount M - 1, ?_⟩
    have := digitCount_of_pos hM ▸ Nat.length_toDigits_pos (b := 10) (n := M)
    omega
  have hfloor : 10 ^ c ≤ M := le_of_lt_digitCount (by omega)
  have hceil : M + 1 ≤ 10 ^ (c + 1) := hc ▸ lt_pow_digitCount M
  constructor
  · refine Nat.le_of_mul_le_mul_left ?_ (hten k)
    calc 10 ^ k * (10 ^ n * (10 ^ b * 2 ^ u)) = 10 ^ (b + n + k) * 2 ^ u := by ring
      _ = 10 ^ c * 2 ^ u * 10 ^ a := by
        rw [show b + n + k = c + a by omega]
        ring
      _ ≤ M * 2 ^ u * 10 ^ a := by gcongr
      _ ≤ s * 10 ^ k * 10 ^ a := by gcongr
      _ = 10 ^ k * (s * 10 ^ a) := by ring
  · refine Nat.lt_of_mul_lt_mul_left (a := 10 ^ k) ?_
    calc 10 ^ k * (s * 10 ^ a) = s * 10 ^ k * 10 ^ a := by ring
      _ < (M * 2 ^ u + 2 ^ u) * 10 ^ a := Nat.mul_lt_mul_of_pos_right hhigh (hten a)
      _ = (M + 1) * 2 ^ u * 10 ^ a := by ring
      _ ≤ 10 ^ (c + 1) * 2 ^ u * 10 ^ a := by gcongr
      _ = 10 ^ (b + n + k + 1) * 2 ^ u := by
        rw [show b + n + k + 1 = c + 1 + a by omega]
        ring
      _ = 10 ^ k * (10 ^ (n + 1) * (10 ^ b * 2 ^ u)) := by ring

theorem decimalExponent_bounds {x : Binary64} (hx : 0 < x.scaled)
    (he : x.decimalExponent - n = (b : Int) - a) :
    10 ^ n * (10 ^ b * 2 ^ unitExponent) ≤ x.scaled * 10 ^ a ∧
      x.scaled * 10 ^ a < 10 ^ (n + 1) * (10 ^ b * 2 ^ unitExponent) := by
  have hunit : 2 ^ unitExponent ≤ Nat.pow 10 340 := Nat.le_of_ble_eq_true (by decide +kernel)
  have htop : x.decimalExponent =
      (digitCount (x.scaled * Nat.pow 10 340 / 2 ^ unitExponent) : Int) - 341 := by
    rw [← Nat.shiftRight_eq_div_pow]
    rfl
  have hpos : 2 ^ unitExponent ≤ x.scaled * Nat.pow 10 340 :=
    Nat.le_trans hunit (Nat.le_mul_of_pos_left _ hx)
  have hpow : ∀ k, Nat.pow 10 k = 10 ^ k := fun _ => rfl
  exact place_bounds (hpow 340) hpos (by omega)

section Grid

variable {tie : Tie} {x : Binary64} {e : Int} {den num : Nat}

/-- The grid of multiples of `10 ^ e`, with the number at `4 * x.scaled * num / den` steps of it. -/
theorem onGrid_eq (hnum : num = 10 ^ (-e).toNat)
    (hden : den = 10 ^ e.toNat * 2 ^ (unitExponent + 2)) : x.onGrid tie e =
      let down := 4 * x.scaled * num / den
      let twice := 2 * (4 * x.scaled * num % den)
      let nearUp : Bool := den < twice || (den = twice && (tie = .up || down % 2 = 1))
      if x.interval.contains (down * den) num &&
        (!x.interval.contains ((down + 1) * den) num || !nearUp) then
        some ⟨down, e⟩
      else if x.interval.contains ((down + 1) * den) num then some ⟨down + 1, e⟩ else none := by
  have hfine : (if e < 0 then Nat.pow 10 (-e).toNat else 1) = num := by
    subst hnum
    split
    · rfl
    · rw [Int.toNat_of_nonpos (by omega), Nat.pow_zero]
  have hcoarse : (if e < 0 then 1 else Nat.pow 10 e.toNat) <<< (unitExponent + 2) = den := by
    rw [hden, Nat.shiftLeft_eq]
    split
    · rw [Int.toNat_of_nonpos (by omega), Nat.pow_zero]
    · exact congrArg (· * _) rfl
  unfold onGrid
  rw [hfine, hcoarse]
  rfl

theorem contains_of_onGrid (hnum : num = 10 ^ (-e).toNat)
    (hden : den = 10 ^ e.toNat * 2 ^ (unitExponent + 2)) {d : Decimal}
    (h : x.onGrid tie e = some d) :
    d.exponent = e ∧
      (d.digits = 4 * x.scaled * num / den ∨ d.digits = 4 * x.scaled * num / den + 1) ∧
      x.interval.contains (d.digits * den) num := by
  rw [onGrid_eq hnum hden] at h
  dsimp only at h
  split at h
  · rename_i hfits
    cases h
    exact ⟨rfl, .inl rfl, (Bool.and_eq_true_iff.mp hfits).1⟩
  · split at h
    · cases h
      exact ⟨rfl, .inr rfl, ‹_›⟩
    · cases h

theorem contains_of_lt (hlow : x.interval.low * den < num) (hhigh : num < x.interval.high * den) :
    x.interval.contains num den := by
  unfold Interval.contains
  split
  · exact Bool.and_eq_true_iff.mpr ⟨decide_eq_true (Nat.le_of_lt hlow),
      decide_eq_true (Nat.le_of_lt hhigh)⟩
  · exact Bool.and_eq_true_iff.mpr ⟨decide_eq_true hlow, decide_eq_true hhigh⟩

/-- A grid that misses the interval has steps as wide as the interval. -/
theorem width_le_of_onGrid_none (hnum : num = 10 ^ (-e).toNat)
    (hden : den = 10 ^ e.toNat * 2 ^ (unitExponent + 2)) (h : x.onGrid tie e = none) :
    (x.interval.high - x.interval.low) * num ≤ den := by
  have hpos : 0 < den := hden ▸ Nat.mul_pos (Nat.pow_pos (by decide)) (Nat.two_pow_pos _)
  have hfine : 0 < num := hnum ▸ Nat.pow_pos (by decide)
  rw [onGrid_eq hnum hden] at h
  dsimp only at h
  have hdown := Nat.div_mul_le_self (4 * x.scaled * num) den
  have hup := Nat.lt_div_mul_add (a := 4 * x.scaled * num) hpos
  generalize 4 * x.scaled * num / den = down at *
  have hnext : (down + 1) * den = down * den + den := Nat.succ_mul down den
  split at h
  · cases h
  rename_i hno
  split at h
  · cases h
  rename_i hno'
  rw [Bool.not_eq_true] at hno'
  simp only [hno', Bool.not_false, Bool.true_or, Bool.and_true, Bool.not_eq_true] at hno
  have hhigh : 4 * x.scaled * num < x.interval.high * num := by
    refine Nat.mul_lt_mul_of_pos_right ?_ hfine
    rw [x.interval_high]
    have := Nat.two_pow_pos x.shift
    omega
  have hlow : x.interval.low * num ≤ 4 * x.scaled * num := by
    refine Nat.mul_le_mul_right _ ?_
    obtain ⟨w, hw, _⟩ := x.interval_low
    omega
  have hbelow : down * den ≤ x.interval.low * num := by
    by_contra hlt
    rw [contains_of_lt (by omega) (by omega)] at hno
    cases hno
  have habove : x.interval.high * num ≤ (down + 1) * den := by
    by_contra hlt
    rw [contains_of_lt (by omega) (by omega)] at hno'
    cases hno'
  rw [Nat.sub_mul]
  omega

/-- The intervals are wider than what seventeen digits can tell apart. -/
theorem onGrid_ne_none (hx : 0 < x.scaled) : x.onGrid tie (x.decimalExponent - 16) ≠ none := by
  intro h
  obtain ⟨e, he⟩ : ∃ e, e = x.decimalExponent - 16 := ⟨_, rfl⟩
  rw [← he] at h
  have hwidth := width_le_of_onGrid_none rfl rfl h
  have hplace := (decimalExponent_bounds hx (a := (-e).toNat) (b := e.toNat) (n := 16) (by omega)).1
  rw [Nat.pow_add, ← Nat.mul_assoc] at hwidth
  have hfine : 0 < 10 ^ (-e).toNat := Nat.pow_pos (by decide)
  generalize 10 ^ (-e).toNat = num at *
  generalize 10 ^ e.toNat * 2 ^ unitExponent = step at *
  have hpos : 0 < 2 ^ x.shift * num := Nat.mul_pos (Nat.two_pow_pos _) hfine
  have hsig := Nat.mul_lt_mul_of_pos_right x.significand_lt hpos
  have hvalue : x.scaled * num = x.significand * (2 ^ x.shift * num) := by
    rw [x.scaled_eq, Nat.mul_assoc]
  have hleast : 2 ^ x.shift ≤ x.scaled := by
    rw [x.scaled_eq] at hx ⊢
    exact Nat.le_mul_of_pos_left _ (Nat.pos_of_mul_pos_right hx)
  obtain ⟨w, hlow, ⟨rfl, _⟩ | ⟨rfl, hedge⟩⟩ := x.interval_low
  · have hspan : x.interval.high - x.interval.low = 4 * 2 ^ x.shift := by
      rw [x.interval_high, hlow]
      omega
    rw [hspan, Nat.mul_assoc] at hwidth
    omega
  · have hspan : x.interval.high - x.interval.low = 3 * 2 ^ x.shift := by
      rw [x.interval_high, hlow]
      omega
    rw [hspan, Nat.mul_assoc] at hwidth
    rw [hedge] at hvalue
    omega

end Grid

end Binary64

namespace Decimal

open Binary64

def Rounds (d : Decimal) (x : Binary64) : Prop :=
  ∀ a b : Nat, d.exponent = (b : Int) - a →
    Near x (4 * (d.digits * 10 ^ b * 2 ^ unitExponent)) (10 ^ a)

variable {d : Decimal} {x : Binary64}

theorem rounds_of_near {a b : Nat} (he : d.exponent = (b : Int) - a)
    (h : Near x (4 * (d.digits * 10 ^ b * 2 ^ unitExponent)) (10 ^ a)) : d.Rounds x := by
  intro a' b' he'
  refine h.congr (Nat.pow_pos (by decide)) (Nat.pow_pos (by decide)) ?_
  have hpow : 10 ^ b * 10 ^ a' = 10 ^ b' * 10 ^ a := by
    rw [← Nat.pow_add, ← Nat.pow_add]
    exact congrArg _ (by omega)
  calc 4 * (d.digits * 10 ^ b * 2 ^ unitExponent) * 10 ^ a'
      = 4 * d.digits * 2 ^ unitExponent * (10 ^ b * 10 ^ a') := by ring
    _ = 4 * d.digits * 2 ^ unitExponent * (10 ^ b' * 10 ^ a) := by rw [hpow]
    _ = 4 * (d.digits * 10 ^ b' * 2 ^ unitExponent) * 10 ^ a := by ring

theorem trim_invariant {P : Decimal → Prop}
    (hstep : ∀ d : Decimal, P d → d.digits ≠ 0 → d.digits % 10 = 0 →
      P ⟨d.digits / 10, d.exponent + 1⟩) (fuel : Nat) (d : Decimal) (h : P d) :
    P (d.trim fuel) := by
  induction fuel generalizing d with
  | zero => exact h
  | succ fuel ih =>
    unfold trim
    split
    · rename_i hzero
      exact ih _ (hstep d h hzero.1 hzero.2)
    · exact h

structure Fits (d : Decimal) (x : Binary64) (place : Int) : Prop where
  positive : 0 < d.digits
  rounds : d.Rounds x
  leading : d.leading = place

theorem Fits.trim {place : Int} (h : d.Fits x place) (fuel : Nat) : (d.trim fuel).Fits x place := by
  refine trim_invariant (P := (·.Fits x place)) ?_ fuel d h
  rintro ⟨digits, e⟩ ⟨hpos, hrounds, hleading⟩ hne hzero
  dsimp only at hpos hzero
  obtain ⟨m, rfl⟩ : ∃ m, digits = m * 10 := ⟨digits / 10, by omega⟩
  have hm : 0 < m := by omega
  simp only [Nat.mul_div_cancel _ (show 0 < 10 by decide)]
  refine ⟨hm, ?_, ?_⟩
  · intro a b he
    have hnear := hrounds (a + 1) b (by simp only at he ⊢; omega)
    refine hnear.congr (Nat.pow_pos (by decide)) (Nat.pow_pos (by decide)) ?_
    ring
  · have hcount := digitCount_mul_pow hm 1
    rw [Nat.pow_one] at hcount
    simp only [Decimal.leading, hcount] at hleading ⊢
    omega

end Decimal

namespace Binary64

variable {x : Binary64}

/-- What a grid finds has its first digit where the number has it, or is the power of ten above. -/
theorem fits_of_onGrid (hx : 0 < x.scaled) {tie : Tie} {n : Nat} {d : Decimal}
    (h : x.onGrid tie (x.decimalExponent - n) = some d) :
    d.Fits x x.decimalExponent ∨
      d.Fits x (x.decimalExponent + 1) ∧ Decimal.Rounds ⟨1, x.decimalExponent + 1⟩ x := by
  obtain ⟨e, he⟩ : ∃ e, e = x.decimalExponent - n := ⟨_, rfl⟩
  rw [← he] at h
  obtain ⟨hexponent, hdigits, hcontains⟩ := contains_of_onGrid rfl rfl h
  have hplace := decimalExponent_bounds hx (a := (-e).toNat) (b := e.toNat) (n := n) (by omega)
  have hfine : 0 < 10 ^ (-e).toNat := Nat.pow_pos (by decide)
  have hstep : 10 ^ e.toNat * 2 ^ (unitExponent + 2) = 4 * (10 ^ e.toNat * 2 ^ unitExponent) := by
    rw [Nat.pow_add]
    ring
  have hnear : Near x (4 * (d.digits * 10 ^ e.toNat * 2 ^ unitExponent)) (10 ^ (-e).toNat) := by
    have hfound := near_of_contains hfine hcontains
    rwa [hstep, Nat.mul_left_comm, ← Nat.mul_assoc d.digits] at hfound
  have hrounds : d.Rounds x := Decimal.rounds_of_near (by omega) hnear
  have hunit : 0 < 10 ^ e.toNat * 2 ^ unitExponent :=
    Nat.mul_pos (Nat.pow_pos (by decide)) (Nat.two_pow_pos _)
  rw [hstep, Nat.mul_assoc, Nat.mul_div_mul_left _ _ (by decide)] at hdigits
  have hlow : 10 ^ n ≤ x.scaled * 10 ^ (-e).toNat / (10 ^ e.toNat * 2 ^ unitExponent) :=
    (Nat.le_div_iff_mul_le hunit).mpr hplace.1
  have hhigh : x.scaled * 10 ^ (-e).toNat / (10 ^ e.toNat * 2 ^ unitExponent) < 10 ^ (n + 1) :=
    (Nat.div_lt_iff_lt_mul hunit).mpr hplace.2
  have hpow : 0 < 10 ^ n := Nat.pow_pos (by decide)
  by_cases htop : d.digits = 10 ^ (n + 1)
  · right
    have hcount : digitCount d.digits = n + 2 :=
      digitCount_eq (by omega) (htop ▸ Nat.pow_lt_pow_right (by decide) (Nat.lt_succ_self _))
    refine ⟨⟨by omega, hrounds, ?_⟩, ?_⟩
    · unfold Decimal.leading
      omega
    · refine Decimal.rounds_of_near (a := (-e).toNat) (b := n + 1 + e.toNat)
        (by simp only; omega) ?_
      rw [Nat.one_mul, Nat.pow_add, ← htop]
      exact hnear
  · left
    have hcount : digitCount d.digits = n + 1 := digitCount_eq (by omega) (by omega)
    refine ⟨by omega, hrounds, ?_⟩
    unfold Decimal.leading
    omega

theorem shortest_fits (hx : 0 < x.scaled) (tie : Tie) :
    (x.shortest tie).Fits x x.decimalExponent ∨ (x.shortest tie).Fits x (x.decimalExponent + 1) ∧
      Decimal.Rounds ⟨1, x.decimalExponent + 1⟩ x := by
  unfold shortest
  dsimp only
  split
  · rename_i d hd
    obtain ⟨n, _, hn⟩ := List.exists_of_findSome?_eq_some hd
    rcases fits_of_onGrid hx hn with h | ⟨h, hpower⟩
    · exact .inl (h.trim 400)
    · exact .inr ⟨h.trim 400, hpower⟩
  · rename_i hnone
    exact (onGrid_ne_none hx (List.findSome?_eq_none_iff.mp hnone 16 (by decide))).elim

end Binary64

end GraphRules
