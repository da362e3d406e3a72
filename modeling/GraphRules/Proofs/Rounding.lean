import GraphRules.Number.Shortest
import Mathlib.Tactic.Linarith
import Mathlib.Tactic.Ring

/-! Rounding to binary numbers. What lies in the interval of a finite number rounds to that number,
whatever fraction it is given as. -/
namespace GraphRules.Binary64

variable {den j n num q : Nat}

/-- The multiple of `d` that is nearest to `n`, the even one of two. -/
theorem roundDiv_eq {d : Nat} (hd : 0 < d) (hlow : 2 * (q * d) ≤ 2 * n + d)
    (hhigh : 2 * n ≤ 2 * (q * d) + d)
    (htie : q % 2 = 1 → 2 * (q * d) < 2 * n + d ∧ 2 * n < 2 * (q * d) + d) : roundDiv n d = q := by
  have hdiv := Nat.div_add_mod n d
  have hmod := Nat.mod_lt n hd
  have heven : q % 2 ≠ 1 ∨ 2 * (q * d) < 2 * n + d ∧ 2 * n < 2 * (q * d) + d := by
    by_cases hodd : q % 2 = 1
    · exact .inr (htie hodd)
    · exact .inl hodd
  unfold roundDiv
  by_cases hn : q * d ≤ n
  · have hq : n / d = q := by
      rw [Nat.div_eq_iff hd]
      constructor
      · omega
      · omega
    rw [hq, Nat.mul_comm] at hdiv
    rw [hq]
    dsimp only
    split
    · rfl
    · split
      · omega
      · omega
  · obtain ⟨p, rfl⟩ : ∃ p, q = p + 1 := by
      cases q with
      | zero => simp at hn
      | succ p => exact ⟨p, rfl⟩
    have hmul : (p + 1) * d = p * d + d := Nat.succ_mul p d
    rw [hmul] at hn hlow hhigh heven
    have hq : n / d = p := by
      rw [Nat.div_eq_iff hd]
      constructor
      · omega
      · omega
    rw [hq, Nat.mul_comm] at hdiv
    rw [hq]
    dsimp only
    split
    · omega
    · split
      · rfl
      · omega

section Fields

variable (x : Binary64)

theorem shift_eq : x.shift = x.pattern / 2 ^ 52 - 1 :=
  congrArg (· - 1) (Nat.shiftRight_eq_div_pow _ _)

theorem significand_eq : x.significand = x.pattern - x.shift * 2 ^ 52 :=
  congrArg (x.pattern - ·) (Nat.shiftLeft_eq _ _)

theorem pattern_eq : x.pattern = x.shift * 2 ^ 52 + x.significand := by
  have hshift := x.shift_eq
  have hsignificand := x.significand_eq
  omega

theorem significand_lt : x.significand < 2 ^ 53 := by
  have hshift := x.shift_eq
  have hsignificand := x.significand_eq
  omega

theorem le_significand (h : 0 < x.shift) : 2 ^ 52 ≤ x.significand := by
  have hshift := x.shift_eq
  have hsignificand := x.significand_eq
  omega

theorem scaled_eq : x.scaled = x.significand * 2 ^ x.shift := Nat.shiftLeft_eq _ _

theorem withSign_pattern : withSign x.isNegative x.pattern = x := by
  have hlt := x.bits.toNat_lt
  have hpattern : x.pattern = x.bits.toNat % 2 ^ 63 := rfl
  have hbits : (if x.isNegative then 1 <<< 63 + x.pattern else x.pattern) = x.bits.toNat := by
    by_cases hsign : 2 ^ 63 ≤ x.bits.toNat
    · have hnegative : x.isNegative = true := decide_eq_true hsign
      rw [hnegative, if_pos rfl]
      change 2 ^ 63 + x.pattern = _
      omega
    · have hnegative : x.isNegative = false := decide_eq_false hsign
      rw [hnegative, if_neg Bool.false_ne_true]
      omega
  rw [withSign, hbits, UInt64.ofNat_toNat]

end Fields

section Signs

variable (negative : Bool) {p : Nat}

theorem pattern_withSign (h : p ≤ infiniteBits) : (withSign negative p).pattern = p := by
  have hinfinite : infiniteBits = 2047 * 2 ^ 52 := rfl
  have hmod : ∀ n, (⟨UInt64.ofNat n⟩ : Binary64).pattern = n % 2 ^ 64 % 2 ^ 63 := fun _ => rfl
  unfold withSign
  rw [hmod]
  cases negative with
  | false => simp only [Bool.false_eq_true, if_false]; omega
  | true =>
    have hsign : 1 <<< 63 = 2 ^ 63 := rfl
    simp only [if_true, hsign]
    omega

theorem isNegative_withSign (h : p ≤ infiniteBits) :
    (withSign negative p).isNegative = negative := by
  have hinfinite : infiniteBits = 2047 * 2 ^ 52 := rfl
  have hsign : 1 <<< 63 = 2 ^ 63 := rfl
  have hmod : ∀ n, (⟨UInt64.ofNat n⟩ : Binary64).isNegative = decide (2 ^ 63 ≤ n % 2 ^ 64) :=
    fun _ => rfl
  unfold withSign
  rw [hmod]
  cases negative with
  | false => simp only [Bool.false_eq_true, if_false, decide_eq_false_iff_not]; omega
  | true => simp only [if_true, hsign, decide_eq_true_eq]; omega

theorem isNaN_withSign (h : p ≤ infiniteBits) : (withSign negative p).isNaN = false :=
  decide_eq_false (by rw [pattern_withSign negative h]; omega)

end Signs

structure Near (x : Binary64) (num den : Nat) : Prop where
  low : 4 * (x.significand * (2 ^ x.shift * den)) ≤ num + 2 * (2 ^ x.shift * den)
  high : num ≤ 4 * (x.significand * (2 ^ x.shift * den)) + 2 * (2 ^ x.shift * den)
  odd : x.significand % 2 = 1 →
    4 * (x.significand * (2 ^ x.shift * den)) < num + 2 * (2 ^ x.shift * den) ∧
    num < 4 * (x.significand * (2 ^ x.shift * den)) + 2 * (2 ^ x.shift * den)
  edge : x.significand = 2 ^ 52 → 0 < x.shift →
    4 * (x.significand * (2 ^ x.shift * den)) ≤ num + 2 ^ x.shift * den

/-- The interval reaches half a step to either side, or a quarter downwards from a power of two. -/
theorem interval_low (x : Binary64) : ∃ w, x.interval.low = 4 * x.scaled - w ∧
    (w = 2 * 2 ^ x.shift ∧ ¬ (x.significand = 2 ^ 52 ∧ 0 < x.shift) ∨ w = 2 ^ x.shift ∧
      x.significand = 2 ^ 52) := by
  have hstep : 1 <<< x.shift = 2 ^ x.shift := Nat.one_shiftLeft _
  by_cases hedge : x.significand = 1 <<< 52 ∧ 0 < x.shift
  · refine ⟨2 ^ x.shift, ?_, .inr ⟨rfl, hedge.1⟩⟩
    simp only [interval, hedge, and_self, if_true, hstep]
  · refine ⟨2 * 2 ^ x.shift, ?_, .inl ⟨rfl, hedge⟩⟩
    simp only [interval, hedge, if_false, hstep]

theorem interval_high (x : Binary64) : x.interval.high = 4 * x.scaled + 2 * 2 ^ x.shift := by
  rw [← Nat.one_shiftLeft]
  rfl

theorem near_of_contains {x : Binary64} (hden : 0 < den) (h : x.interval.contains num den) :
    Near x num den := by
  have hbounds : (x.interval.low * den ≤ num ∧ num ≤ x.interval.high * den) ∧
      (x.significand % 2 = 1 → x.interval.low * den < num ∧ num < x.interval.high * den) := by
    have hclosed : x.interval.closed = decide (x.significand % 2 = 0) := by simp only [interval]
    unfold Interval.contains at h
    rw [hclosed] at h
    by_cases heven : x.significand % 2 = 0
    · simp only [heven, decide_true, if_true, Bool.and_eq_true, decide_eq_true_eq] at h
      exact ⟨h, by omega⟩
    · simp only [heven, decide_false, Bool.false_eq_true, if_false, Bool.and_eq_true,
        decide_eq_true_eq] at h
      exact ⟨by omega, fun _ => h⟩
  obtain ⟨w, hlow, hcases⟩ := x.interval_low
  have hw : w ≤ 2 * 2 ^ x.shift := by omega
  have hstep : 0 < 2 ^ x.shift * den := Nat.mul_pos (Nat.two_pow_pos _) hden
  have hvalue : 4 * x.scaled * den = 4 * (x.significand * (2 ^ x.shift * den)) := by
    rw [x.scaled_eq]
    ring
  have hwide : w * den ≤ 2 * (2 ^ x.shift * den) := by
    calc w * den ≤ 2 * 2 ^ x.shift * den := Nat.mul_le_mul_right _ hw
      _ = 2 * (2 ^ x.shift * den) := Nat.mul_assoc _ _ _
  have hhigh : x.interval.high * den = 4 * (x.significand * (2 ^ x.shift * den)) + 2 *
      (2 ^ x.shift * den) := by
    rw [x.interval_high, Nat.add_mul, hvalue, Nat.mul_assoc]
  rw [hlow, hhigh, Nat.sub_mul, hvalue] at hbounds
  obtain ⟨hweak, hstrict⟩ := hbounds
  refine ⟨by omega, hweak.2, fun hodd => ?_, fun hsig hshift => ?_⟩
  · have := hstrict hodd
    omega
  · have hquarter : w = 2 ^ x.shift := by
      rcases hcases with ⟨_, hno⟩ | ⟨hw, _⟩
      · exact (hno ⟨hsig, hshift⟩).elim
      · exact hw
    rw [hquarter] at hweak
    omega

theorem Near.congr {x : Binary64} {num' den' : Nat} (h : Near x num den) (hden : 0 < den)
    (hden' : 0 < den') (heq : num * den' = num' * den) : Near x num' den' := by
  have hle {a b a' b' : Nat} (ha : den * a' = den' * a) (hb : den * b' = den' * b)
      (hab : a ≤ b) : a' ≤ b' := by
    refine Nat.le_of_mul_le_mul_left ?_ hden
    rw [ha, hb]
    exact Nat.mul_le_mul_left _ hab
  have hlt {a b a' b' : Nat} (ha : den * a' = den' * a) (hb : den * b' = den' * b)
      (hab : a < b) : a' < b' := by
    refine Nat.lt_of_mul_lt_mul_left (a := den) ?_
    rw [ha, hb]
    exact Nat.mul_lt_mul_of_pos_left hab hden'
  have hnum : den * num' = den' * num := by rw [Nat.mul_comm, ← heq, Nat.mul_comm]
  have hvalue : den * (4 * (x.significand * (2 ^ x.shift * den'))) =
      den' * (4 * (x.significand * (2 ^ x.shift * den))) := by ring
  have htop : den * (4 * (x.significand * (2 ^ x.shift * den')) + 2 * (2 ^ x.shift * den')) =
      den' * (4 * (x.significand * (2 ^ x.shift * den)) + 2 * (2 ^ x.shift * den)) := by ring
  have hhalf : den * (num' + 2 * (2 ^ x.shift * den')) =
      den' * (num + 2 * (2 ^ x.shift * den)) := by
    rw [Nat.mul_add, hnum]
    ring
  have hquarter : den * (num' + 2 ^ x.shift * den') = den' * (num + 2 ^ x.shift * den) := by
    rw [Nat.mul_add, hnum]
    ring
  exact ⟨hle hvalue hhalf h.low, hle hnum htop h.high,
    fun hodd => ⟨hlt hvalue hhalf (h.odd hodd).1, hlt hnum htop (h.odd hodd).2⟩,
    fun hsig hshift => hle hvalue hquarter (h.edge hsig hshift)⟩

theorem scale_eq {s : Nat} (hlow : j = 0 ∨ 2 ^ (52 + j) ≤ s) (hhigh : s < 2 ^ (53 + j)) :
    (if s < 1 <<< 53 then 0 else s.log2 - 52) = j := by
  have hone : 1 <<< 53 = 2 ^ 53 := rfl
  rw [hone]
  by_cases hj : j = 0
  · subst hj
    rw [if_pos hhigh]
  · have hle := hlow.resolve_left hj
    have hpow : 2 ^ 53 ≤ 2 ^ (52 + j) := Nat.pow_le_pow_right (by decide) (by omega)
    have hlog : s.log2 = 52 + j :=
      (Nat.log2_eq_iff (by omega)).mpr ⟨hle, by rwa [Nat.add_right_comm]⟩
    rw [if_neg (by omega), hlog]
    omega

/-- The pattern of a fraction that is rounded at scale `j`. -/
theorem scaled_round (hden : 0 < den) (hlow : j = 0 ∨ 2 ^ 52 * (2 ^ j * den) ≤ n)
    (hhigh : n < 2 ^ 53 * (2 ^ j * den)) (hq : roundDiv n (2 ^ j * den) = q) :
    (if n / den < 1 <<< 53 then 0 else (n / den).log2 - 52) * 2 ^ 52 +
      roundDiv n (den <<< (if n / den < 1 <<< 53 then 0 else (n / den).log2 - 52)) =
        j * 2 ^ 52 + q := by
  have hscale : (if n / den < 1 <<< 53 then 0 else (n / den).log2 - 52) = j := by
    apply scale_eq
    · rcases hlow with hj | hlow
      · exact .inl hj
      · right
        rw [Nat.le_div_iff_mul_le hden, Nat.pow_add, Nat.mul_assoc]
        exact hlow
    · rw [Nat.div_lt_iff_lt_mul hden, Nat.pow_add, Nat.mul_assoc]
      exact hhigh
  rw [hscale, Nat.shiftLeft_eq, Nat.mul_comm den, hq]

/-- What lies in the interval of a finite number rounds to it. -/
theorem ofRatio_of_near {x : Binary64} (hden : 0 < den) (hfinite : x.isFinite)
    (h : Near x (4 * (num * 2 ^ unitExponent)) den) (negative : Bool) :
    ofRatio negative num den = withSign negative x.pattern := by
  have hmin : min infiniteBits x.pattern = x.pattern :=
    Nat.min_eq_right (Nat.le_of_lt (of_decide_eq_true hfinite))
  have hn : num <<< unitExponent = num * 2 ^ unitExponent := Nat.shiftLeft_eq _ _
  have hsig := x.significand_lt
  have hstep : 0 < 2 ^ x.shift * den := Nat.mul_pos (Nat.two_pow_pos _) hden
  simp only [ofRatio, hn, Nat.shiftLeft_eq _ 52]
  generalize num * 2 ^ unitExponent = n at h
  obtain ⟨hlow, hhigh, hodd, hedge⟩ := h
  have htop : x.significand * (2 ^ x.shift * den) + 2 ^ x.shift * den ≤
      2 ^ 53 * (2 ^ x.shift * den) := by
    rw [← Nat.succ_mul]
    exact Nat.mul_le_mul_right _ hsig
  by_cases hcase : x.shift = 0 ∨ 2 ^ 52 * (2 ^ x.shift * den) ≤ n
  · have hround : roundDiv n (2 ^ x.shift * den) = x.significand := by
      refine roundDiv_eq hstep (by omega) (by omega) fun h => ?_
      have := hodd h
      omega
    rw [scaled_round hden hcase (by omega) hround, ← x.pattern_eq, hmin]
  · -- below the power of two that the interval surrounds, the scale is one less
    simp only [not_or, Nat.not_le] at hcase
    obtain ⟨hshift, hbelow⟩ := hcase
    obtain ⟨j, hj⟩ : ∃ j, x.shift = j + 1 := ⟨x.shift - 1, by omega⟩
    have hleast := x.le_significand (by omega)
    have heq : x.significand = 2 ^ 52 := by
      by_contra hne
      have hmore : 2 ^ 52 * (2 ^ x.shift * den) + 2 ^ x.shift * den ≤
          x.significand * (2 ^ x.shift * den) := by
        rw [← Nat.succ_mul]
        exact Nat.mul_le_mul_right _ (by omega)
      omega
    have hquarter := hedge heq (by omega)
    have hhalf : 2 ^ x.shift * den = 2 * (2 ^ j * den) := by
      rw [hj, Nat.pow_succ]
      ring
    rw [heq, hhalf] at hquarter
    rw [hhalf] at hbelow hstep
    have hround : roundDiv n (2 ^ j * den) = 2 ^ 53 :=
      roundDiv_eq (by omega) (by omega) (by omega) (by omega)
    have hpattern : j * 2 ^ 52 + 2 ^ 53 = x.pattern := by
      rw [x.pattern_eq, hj, heq]
      omega
    rw [scaled_round hden (by omega) (by omega) hround, hpattern, hmin]

end GraphRules.Binary64
