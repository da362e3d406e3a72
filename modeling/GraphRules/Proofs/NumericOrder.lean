import GraphRules.Engine.Search
import GraphRules.Proofs.Rounding

/-! The order of number constants. Two whole numbers are compared exactly, and a whole number with a
floating-point number only after it has been rounded to one. Rounding keeps the order, so what holds
of two numbers also holds of what they are rounded to; but beyond `2 ^ 53` it makes different whole
numbers equal, and a floating-point number between two such numbers is equal to both of them. Apart
from that the comparison is a total preorder. -/
namespace GraphRules

namespace Binary64

/-! ### Rounding -/

theorem roundDiv_mul {d : Nat} (hd : 0 < d) (q : Nat) : roundDiv (q * d) d = q :=
  roundDiv_eq hd (by omega) (by omega) (by omega)

theorem roundDiv_mono {n m : Nat} (d : Nat) (h : n ≤ m) : roundDiv n d ≤ roundDiv m d := by
  have hquotient : n / d ≤ m / d := Nat.div_le_div_right h
  have hn := Nat.div_add_mod n d
  have hm := Nat.div_add_mod m d
  unfold roundDiv
  dsimp only
  rcases Nat.eq_or_lt_of_le hquotient with heq | hlt
  · rw [heq] at hn ⊢
    have hremainder : n % d ≤ m % d := by omega
    split_ifs <;> omega
  · split_ifs <;> omega

def roundedPattern (n den : Nat) : Nat :=
  let k := if n / den < 1 <<< 53 then 0 else (n / den).log2 - 52
  k <<< 52 + roundDiv n (den <<< k)

section Scales

variable {den n m : Nat}

theorem roundedPattern_of_scale {j : Nat} (hden : 0 < den)
    (hlow : j = 0 ∨ 2 ^ 52 * (2 ^ j * den) ≤ n) (hhigh : n < 2 ^ 53 * (2 ^ j * den)) :
    roundedPattern n den = j * 2 ^ 52 + roundDiv n (2 ^ j * den) := by
  rw [← scaled_round hden hlow hhigh rfl, roundedPattern, Nat.shiftLeft_eq]

theorem exists_scale (hden : 0 < den) (n : Nat) :
    ∃ j, (j = 0 ∨ 2 ^ 52 * (2 ^ j * den) ≤ n) ∧ n < 2 ^ 53 * (2 ^ j * den) := by
  by_cases hsmall : n / den < 2 ^ 53
  · refine ⟨0, .inl rfl, ?_⟩
    rwa [Nat.pow_zero, Nat.one_mul, ← Nat.div_lt_iff_lt_mul hden]
  · have hne : n / den ≠ 0 := by omega
    have hlog : 53 ≤ (n / den).log2 := (Nat.le_log2 hne).mpr (Nat.le_of_not_lt hsmall)
    refine ⟨(n / den).log2 - 52, .inr ?_, ?_⟩
    · rw [← Nat.mul_assoc, ← Nat.pow_add, ← Nat.le_div_iff_mul_le hden,
        show 52 + ((n / den).log2 - 52) = (n / den).log2 by omega]
      exact Nat.log2_self_le hne
    · rw [← Nat.mul_assoc, ← Nat.pow_add, ← Nat.div_lt_iff_lt_mul hden,
        show 53 + ((n / den).log2 - 52) = (n / den).log2 + 1 by omega]
      exact Nat.lt_log2_self

theorem roundedPattern_mono (hden : 0 < den) (h : n ≤ m) :
    roundedPattern n den ≤ roundedPattern m den := by
  obtain ⟨i, hlow, hhigh⟩ := exists_scale hden n
  obtain ⟨j, hlow', hhigh'⟩ := exists_scale hden m
  rw [roundedPattern_of_scale hden hlow hhigh, roundedPattern_of_scale hden hlow' hhigh']
  have hstep : ∀ k, 0 < 2 ^ k * den := fun k => Nat.mul_pos (Nat.two_pow_pos k) hden
  rcases Nat.lt_trichotomy i j with hij | rfl | hij
  · -- at the lower scale at most `2 ^ 53`, at the higher one at least `2 ^ 52`
    have hmost : roundDiv n (2 ^ i * den) ≤ 2 ^ 53 := by
      rw [← roundDiv_mul (hstep i) (2 ^ 53)]
      exact roundDiv_mono _ (Nat.le_of_lt hhigh)
    have hleast : 2 ^ 52 ≤ roundDiv m (2 ^ j * den) := by
      rw [← roundDiv_mul (hstep j) (2 ^ 52)]
      exact roundDiv_mono _ (hlow'.resolve_left (by omega))
    omega
  · exact Nat.add_le_add_left (roundDiv_mono _ h) _
  · have hfloor := hlow.resolve_left (by omega)
    have hdouble : 2 * (2 ^ j * den) ≤ 2 ^ i * den := by
      rw [← Nat.mul_assoc, ← Nat.pow_succ']
      exact Nat.mul_le_mul_right _ (Nat.pow_le_pow_right (by decide) hij)
    omega

/-- A whole number of steps at some scale is not rounded. -/
theorem roundedPattern_exact (hden : 0 < den) {j q : Nat} (hlow : j = 0 ∨ 2 ^ 52 ≤ q)
    (hhigh : q ≤ 2 ^ 53) : roundedPattern (q * (2 ^ j * den)) den = j * 2 ^ 52 + q := by
  have hstep : ∀ k, 0 < 2 ^ k * den := fun k => Nat.mul_pos (Nat.two_pow_pos k) hden
  rcases Nat.eq_or_lt_of_le hhigh with rfl | hlt
  · -- the first number of the next scale
    have hnext : 2 ^ 53 * (2 ^ j * den) = 2 ^ 52 * (2 ^ (j + 1) * den) := by
      rw [Nat.pow_succ 2 j]
      ring
    have hpos := hstep (j + 1)
    rw [hnext, roundedPattern_of_scale hden (.inr (Nat.le_refl _)) (by omega),
      roundDiv_mul (hstep (j + 1))]
    omega
  · have hlow' := hlow.imp_right (Nat.mul_le_mul_right (2 ^ j * den))
    rw [roundedPattern_of_scale hden hlow' (Nat.mul_lt_mul_of_pos_right hlt (hstep j)),
      roundDiv_mul (hstep j)]

end Scales

/-! ### Whole numbers -/

def naturalPattern (n : Nat) : Nat := min infiniteBits (roundedPattern (n <<< unitExponent) 1)

theorem naturalPattern_mono {m n : Nat} (h : m ≤ n) : naturalPattern m ≤ naturalPattern n := by
  have hpattern : roundedPattern (m <<< unitExponent) 1 ≤
      roundedPattern (n <<< unitExponent) 1 := by
    refine roundedPattern_mono Nat.one_pos ?_
    rw [Nat.shiftLeft_eq, Nat.shiftLeft_eq]
    exact Nat.mul_le_mul_right _ h
  unfold naturalPattern
  omega

/-- A whole number below `2 ^ 53` is a whole number of steps at its scale. -/
theorem exists_steps {m : Nat} (h : m < 2 ^ 53) :
    ∃ j q, j ≤ unitExponent ∧ (j = 0 ∨ 2 ^ 52 ≤ q) ∧ q < 2 ^ 53 ∧
      m * 2 ^ unitExponent = q * 2 ^ j := by
  obtain ⟨j, hlow, hhigh⟩ := exists_scale Nat.one_pos (m * 2 ^ unitExponent)
  simp only [Nat.mul_one] at hlow hhigh
  have hj : j ≤ unitExponent := by
    by_contra hlt
    have hfloor := hlow.resolve_left (by omega)
    have hpow : 2 * 2 ^ unitExponent ≤ 2 ^ j := by
      rw [← Nat.pow_succ']
      exact Nat.pow_le_pow_right (by decide) (by omega)
    have htop : m * 2 ^ unitExponent < 2 ^ 53 * 2 ^ unitExponent :=
      Nat.mul_lt_mul_of_pos_right h (Nat.two_pow_pos _)
    omega
  have hsteps : m * 2 ^ unitExponent = m * 2 ^ (unitExponent - j) * 2 ^ j := by
    rw [Nat.mul_assoc, ← Nat.pow_add, Nat.sub_add_cancel hj]
  rw [hsteps] at hlow hhigh
  refine ⟨j, m * 2 ^ (unitExponent - j), hj, ?_, Nat.lt_of_mul_lt_mul_right hhigh, hsteps⟩
  exact hlow.imp_right fun hle => Nat.le_of_mul_le_mul_right hle (Nat.two_pow_pos j)

/-- Up to `2 ^ 53` no two whole numbers have the same pattern: the larger one is at least a step
above. -/
theorem naturalPattern_lt {m n : Nat} (h : m < n) (hn : n ≤ 2 ^ 53) :
    naturalPattern m < naturalPattern n := by
  obtain ⟨j, q, hj, hlow, hhigh, hsteps⟩ := exists_steps (show m < 2 ^ 53 by omega)
  have hnext : (q + 1) * 2 ^ j ≤ n * 2 ^ unitExponent := by
    have hstep : 2 ^ j ≤ 2 ^ unitExponent := Nat.pow_le_pow_right (by decide) hj
    calc (q + 1) * 2 ^ j = m * 2 ^ unitExponent + 2 ^ j := by rw [Nat.succ_mul, ← hsteps]
      _ ≤ m * 2 ^ unitExponent + 2 ^ unitExponent := Nat.add_le_add_left hstep _
      _ = (m + 1) * 2 ^ unitExponent := (Nat.succ_mul _ _).symm
      _ ≤ n * 2 ^ unitExponent := Nat.mul_le_mul_right _ h
  have hpattern : roundedPattern (m <<< unitExponent) 1 = j * 2 ^ 52 + q := by
    rw [Nat.shiftLeft_eq, hsteps, ← roundedPattern_exact Nat.one_pos hlow (by omega), Nat.mul_one]
  have hpattern' : j * 2 ^ 52 + (q + 1) ≤ roundedPattern (n <<< unitExponent) 1 := by
    rw [Nat.shiftLeft_eq, ← roundedPattern_exact Nat.one_pos (hlow.imp_right (by omega)) (by omega),
      Nat.mul_one]
    exact roundedPattern_mono Nat.one_pos hnext
  have hinfinite : infiniteBits = 2047 * 2 ^ 52 := rfl
  have hunit : unitExponent = 1074 := rfl
  unfold naturalPattern
  omega

theorem rank_ofInt (n : Int) :
    (ofInt n).rank = if n < 0 then -(naturalPattern n.natAbs : Int)
      else naturalPattern n.natAbs := by
  have hle : naturalPattern n.natAbs ≤ infiniteBits := Nat.min_le_left ..
  have hofInt : ofInt n = withSign (decide (n < 0)) (naturalPattern n.natAbs) := rfl
  rw [hofInt, rank, isNegative_withSign _ hle, pattern_withSign _ hle]
  simp only [decide_eq_true_eq]

theorem isNaN_ofInt (n : Int) : (ofInt n).isNaN = false := isNaN_withSign _ (Nat.min_le_left ..)

theorem rank_ofInt_mono {m n : Int} (h : m ≤ n) : (ofInt m).rank ≤ (ofInt n).rank := by
  rw [rank_ofInt, rank_ofInt]
  split_ifs with hm hn hn
  · have hpattern : naturalPattern n.natAbs ≤ naturalPattern m.natAbs :=
      naturalPattern_mono (by omega)
    omega
  · omega
  · omega
  · have hpattern : naturalPattern m.natAbs ≤ naturalPattern n.natAbs :=
      naturalPattern_mono (by omega)
    omega

/-- Up to `2 ^ 53` it keeps whole numbers apart. -/
theorem rank_ofInt_lt {m n : Int} (h : m < n) (hm : m.natAbs ≤ 2 ^ 53) (hn : n.natAbs ≤ 2 ^ 53) :
    (ofInt m).rank < (ofInt n).rank := by
  rw [rank_ofInt, rank_ofInt]
  split_ifs with hm' hn' hn'
  · have hpattern : naturalPattern n.natAbs < naturalPattern m.natAbs :=
      naturalPattern_lt (by omega) hm
    omega
  · have hpattern : naturalPattern 0 < naturalPattern m.natAbs := naturalPattern_lt (by omega) hm
    omega
  · omega
  · have hpattern : naturalPattern m.natAbs < naturalPattern n.natAbs :=
      naturalPattern_lt (by omega) hn
    omega

theorem ofInt_eq_of_rank_eq_zero {n : Int} (h : (ofInt n).rank = 0) : n = 0 := by
  have hone : naturalPattern 0 < naturalPattern 1 := naturalPattern_lt Nat.one_pos (by decide)
  by_contra hne
  have hle : naturalPattern 1 ≤ naturalPattern n.natAbs := naturalPattern_mono (by omega)
  rw [rank_ofInt] at h
  split_ifs at h <;> omega

/-! ### Values -/

theorem rank_eq_iff (x y : Binary64) : x.rank = y.rank ↔ x = y ∨ x.pattern = 0 ∧ y.pattern = 0 := by
  constructor
  · intro h
    unfold rank at h
    by_cases hzero : x.pattern = 0
    · split_ifs at h <;> omega
    · have hpattern : x.pattern = y.pattern := by split_ifs at h <;> omega
      have hsign : x.isNegative = y.isNegative := by
        split_ifs at h with hx hy hy
        · rw [hx, hy]
        · omega
        · omega
        · rw [Bool.not_eq_true] at hx hy
          rw [hx, hy]
      left
      rw [← x.withSign_pattern, ← y.withSign_pattern, hpattern, hsign]
  · rintro (rfl | ⟨hx, hy⟩)
    · rfl
    · simp [rank, hx, hy]

variable {x : Binary64}

theorem sameValue_iff {y : Binary64} (hx : x.isNaN = false) : x.sameValue y ↔ x.rank = y.rank := by
  simp [sameValue, hx, rank_eq_iff]

/-- If a number is at least what a whole number is rounded to, and at most what a smaller one is
rounded to, then both are rounded to it. -/
theorem ofInt_eq_of_between {m n : Int} (h : n < m) (hm : (ofInt m).rank ≤ x.rank)
    (hn : x.rank ≤ (ofInt n).rank) : ofInt m = x ∧ ofInt n = x := by
  have hmono : (ofInt n).rank ≤ (ofInt m).rank := rank_ofInt_mono (Int.le_of_lt h)
  have hm' : (ofInt m).rank = x.rank := by omega
  have hn' : (ofInt n).rank = x.rank := by omega
  have hnonzero : x.pattern ≠ 0 := by
    intro hzero
    have hrank : x.rank = 0 := by simp [rank, hzero]
    have hm := ofInt_eq_of_rank_eq_zero (hm'.trans hrank)
    have hn := ofInt_eq_of_rank_eq_zero (hn'.trans hrank)
    omega
  exact ⟨((rank_eq_iff _ _).mp hm').resolve_right fun hzero => hnonzero hzero.2,
    ((rank_eq_iff _ _).mp hn').resolve_right fun hzero => hnonzero hzero.2⟩

end Binary64

namespace Number

open Search (compares)

def isNaN : Number → Bool
  | .int _ => false
  | .float x => x.isNaN

def rank (a : Number) : Int := a.toBinary64.rank

/-- A pair that is not compared exactly. -/
def Mixed (a b : Number) : Prop := ∀ m n, a = .int m → b ≠ .int n

variable {a b c : Number} {m n : Int} {x : Binary64}

theorem isNaN_toBinary64 (a : Number) : a.toBinary64.isNaN = a.isNaN := by
  cases a with
  | int n => exact Binary64.isNaN_ofInt n
  | float x => rfl

theorem Mixed.symm (h : Mixed a b) : Mixed b a := fun m n hb ha => h n m ha hb

theorem mixed_or_int (a b : Number) : Mixed a b ∨ ∃ m n, a = .int m ∧ b = .int n := by
  cases a with
  | float x => exact .inl fun m n h => by cases h
  | int m =>
    cases b with
    | float y => exact .inl fun m n _ h => by cases h
    | int n => exact .inr ⟨m, n, rfl, rfl⟩

theorem Mixed.compare?_eq (h : Mixed a b) (ha : a.isNaN = false) (hb : b.isNaN = false) :
    a.compare? b = some (compare a.rank b.rank) := by
  rw [← isNaN_toBinary64] at ha hb
  have hfloat : a.compare? b = a.toBinary64.compare? b.toBinary64 :=
    compare?.eq_2 a b fun m n hm hn => h m n hm hn
  rw [hfloat, Binary64.compare?, ha, hb]
  rfl

theorem Mixed.sameValue_iff (h : Mixed a b) (ha : a.isNaN = false) :
    a.sameValue b ↔ a.rank = b.rank := by
  rw [← isNaN_toBinary64] at ha
  have hfloat : a.sameValue b = a.toBinary64.sameValue b.toBinary64 :=
    sameValue.eq_2 a b fun m n hm hn => h m n hm hn
  rw [hfloat, Binary64.sameValue_iff ha]
  rfl

/-- Two numbers are compared as two whole numbers are: themselves, or their ranks. -/
theorem exists_keys (ha : a.isNaN = false) (hb : b.isNaN = false) :
    ∃ p q : Int, a.compare? b = some (compare p q) ∧ b.compare? a = some (compare q p) ∧
      (a.sameValue b ↔ p = q) := by
  rcases mixed_or_int a b with hmixed | ⟨m, n, rfl, rfl⟩
  · exact ⟨a.rank, b.rank, hmixed.compare?_eq ha hb, hmixed.symm.compare?_eq hb ha,
      hmixed.sameValue_iff ha⟩
  · exact ⟨m, n, rfl, rfl, by simp [sameValue]⟩

section Relations

variable {p q : Int}

theorem compares_le_iff (h : a.compare? b = some (compare p q)) :
    compares "<=" (.number a) (.number b) ↔ p ≤ q := by
  have hle : compares "<=" (.number a) (.number b) = (compare p q).isLE := by simp [compares, h]
  rw [hle, Std.isLE_compare]

theorem compares_eq_iff (h : a.compare? b = some (compare p q)) :
    compares "==" (.number a) (.number b) ↔ p = q := by
  have heq : compares "==" (.number a) (.number b) = (compare p q).isEq := by simp [compares, h]
  rw [heq, Ordering.isEq_iff_eq_eq, compare_eq_iff_eq]

end Relations

theorem compares_eq_iff_le (ha : a.isNaN = false) (hb : b.isNaN = false) :
    compares "==" (.number a) (.number b) ↔
    compares "<=" (.number a) (.number b) ∧ compares "<=" (.number b) (.number a) := by
  obtain ⟨p, q, hab, hba, -⟩ := exists_keys ha hb
  rw [compares_eq_iff hab, compares_le_iff hab, compares_le_iff hba]
  omega

/-- What is at most another number is so after rounding. -/
theorem rank_le_of_compares (ha : a.isNaN = false) (hb : b.isNaN = false)
    (h : compares "<=" (.number a) (.number b)) : a.rank ≤ b.rank := by
  rcases mixed_or_int a b with hmixed | ⟨m, n, rfl, rfl⟩
  · exact (compares_le_iff (hmixed.compare?_eq ha hb)).mp h
  · exact Binary64.rank_ofInt_mono ((compares_le_iff rfl).mp h)

/-- Two whole numbers, the first of them larger, that are both rounded to the floating-point number
between them. -/
def Blurs : Number → Number → Number → Prop
  | .int m, .float x, .int n => n < m ∧ Binary64.ofInt m = x ∧ Binary64.ofInt n = x
  | _, _, _ => False

theorem Mixed.not_blurs (h : Mixed a c) (b : Number) : ¬ Blurs a b c := by
  cases a with
  | float x => exact id
  | int m =>
    cases c with
    | float y => cases b <;> exact id
    | int n => exact absurd rfl (h m n rfl)

/-- The comparison of whole numbers over a third number. -/
theorem le_iff_not_blurs (hb : b.isNaN = false) (hab : compares "<=" (.number (.int m)) (.number b))
    (hbc : compares "<=" (.number b) (.number (.int n))) : m ≤ n ↔ ¬ Blurs (.int m) b (.int n) := by
  cases b with
  | int k =>
    have hmk : m ≤ k := (compares_le_iff rfl).mp hab
    have hkn : k ≤ n := (compares_le_iff rfl).mp hbc
    exact iff_of_true (by omega) id
  | float x =>
    have hm : (Number.int m).rank ≤ (Number.float x).rank := rank_le_of_compares rfl hb hab
    have hn : (Number.float x).rank ≤ (Number.int n).rank := rank_le_of_compares hb rfl hbc
    rw [← Int.not_lt]
    exact not_congr ⟨fun h => ⟨h, Binary64.ofInt_eq_of_between h hm hn⟩, And.left⟩

theorem compares_le_trans_iff (ha : a.isNaN = false) (hb : b.isNaN = false) (hc : c.isNaN = false)
    (hab : compares "<=" (.number a) (.number b)) (hbc : compares "<=" (.number b) (.number c)) :
    compares "<=" (.number a) (.number c) ↔ ¬ Blurs a b c := by
  rcases mixed_or_int a c with hmixed | ⟨m, n, rfl, rfl⟩
  · have hrank : a.rank ≤ c.rank :=
      (rank_le_of_compares ha hb hab).trans (rank_le_of_compares hb hc hbc)
    exact iff_of_true ((compares_le_iff (hmixed.compare?_eq ha hc)).mpr hrank) (hmixed.not_blurs b)
  · rw [compares_le_iff rfl]
    exact le_iff_not_blurs hb hab hbc

theorem Blurs.large (h : Blurs (.int m) (.float x) (.int n)) : 2 ^ 53 < max m.natAbs n.natAbs := by
  obtain ⟨hlt, hm, hn⟩ := h
  by_contra hsmall
  have hrank : (Binary64.ofInt n).rank < (Binary64.ofInt m).rank :=
    Binary64.rank_ofInt_lt hlt (by omega) (by omega)
  rw [hm, hn] at hrank
  exact lt_irrefl _ hrank

/-- Both of them are equal to the number that blurs them. -/
theorem Blurs.equal (h : Blurs (.int m) (.float x) (.int n)) :
    compares "==" (.number (.int m)) (.number (.float x)) ∧
      compares "==" (.number (.float x)) (.number (.int n)) := by
  obtain ⟨-, hm, hn⟩ := h
  have hx : (Number.float x).isNaN = false := hm ▸ Binary64.isNaN_ofInt m
  have hleft : Mixed (.int m) (.float x) := fun _ _ _ e => by cases e
  have hright : Mixed (.float x) (.int n) := fun _ _ e => by cases e
  exact ⟨(compares_eq_iff (hleft.compare?_eq rfl hx)).mpr (congrArg Binary64.rank hm),
    (compares_eq_iff (hright.compare?_eq hx rfl)).mpr (congrArg Binary64.rank hn.symm)⟩

/-- Numbers that are not NaN can be compared, the order of two numbers turns round with them, and
they have the same value just when neither is before the other. Going over a third number is the
same as comparing at once, unless two different whole numbers are rounded to the one between them;
at least one of them is then beyond `2 ^ 53`, and both are equal to the number that they are rounded
to. -/
theorem comparison_laws (a b c : Number) (ha : a.isNaN = false) (hb : b.isNaN = false)
    (hc : c.isNaN = false) :
    (∃ o, a.compare? b = some o ∧ b.compare? a = some o.swap ∧ (a.sameValue b ↔ o = .eq)) ∧
      (compares "<=" (.number a) (.number b) ∨ compares "<=" (.number b) (.number a)) ∧
      (compares "<=" (.number a) (.number b) → compares "<=" (.number b) (.number c) →
        (compares "<=" (.number a) (.number c) ↔ ¬ Blurs a b c)) ∧
      (compares "==" (.number a) (.number b) → compares "==" (.number b) (.number c) →
        (compares "==" (.number a) (.number c) ↔ ¬ Blurs a b c ∧ ¬ Blurs c b a)) ∧
      ∀ m x n, Blurs (.int m) (.float x) (.int n) → 2 ^ 53 < max m.natAbs n.natAbs ∧
        compares "==" (.number (.int m)) (.number (.float x)) ∧
        compares "==" (.number (.float x)) (.number (.int n)) := by
  obtain ⟨p, q, hab, hba, hsame⟩ := exists_keys ha hb
  refine ⟨⟨compare p q, hab, ?_, ?_⟩, ?_, compares_le_trans_iff ha hb hc, fun hab hbc => ?_,
    fun _ _ _ h => ⟨h.large, h.equal⟩⟩
  · rw [hba, Std.OrientedOrd.eq_swap]
  · rw [hsame, compare_eq_iff_eq]
  · rw [compares_le_iff hab, compares_le_iff hba]
    exact le_total p q
  · rw [compares_eq_iff_le ha hb] at hab
    rw [compares_eq_iff_le hb hc] at hbc
    rw [compares_eq_iff_le ha hc, compares_le_trans_iff ha hb hc hab.1 hbc.1,
      compares_le_trans_iff hc hb ha hbc.2 hab.2]

def brink : Binary64 := ⟨0x4340000000000000⟩

theorem blurs_brink : Blurs (.int 9007199254740993) (.float brink) (.int 9007199254740992) :=
  ⟨by decide, by decide +kernel, by decide +kernel⟩

theorem isNaN_brink : (Number.float brink).isNaN = false := by decide

/-- From the whole number `2 ^ 53 + 1` over the floating-point number `2 ^ 53`: to the whole number
`2 ^ 53` both steps hold but not the comparison at once, and to `2 ^ 53 + 2` all three hold. -/
theorem comparison_laws_brink :
    (Number.float brink).isNaN = false ∧
      compares "<=" (.number (.int 9007199254740993)) (.number (.float brink)) ∧
      (compares "<=" (.number (.float brink)) (.number (.int 9007199254740992)) ∧
        ¬ compares "<=" (.number (.int 9007199254740993)) (.number (.int 9007199254740992))) ∧
      (compares "<=" (.number (.float brink)) (.number (.int 9007199254740994)) ∧
        compares "<=" (.number (.int 9007199254740993)) (.number (.int 9007199254740994))) := by
  obtain ⟨hleft, hright⟩ := blurs_brink.equal
  have hle := ((compares_eq_iff_le rfl isNaN_brink).mp hleft).1
  have hback := ((compares_eq_iff_le isNaN_brink rfl).mp hright).1
  have hon : compares "<=" (.number (.float brink)) (.number (.int 9007199254740994)) := by
    decide +kernel
  refine ⟨isNaN_brink, hle, ⟨hback, fun h => ?_⟩, hon, ?_⟩
  · exact ((comparison_laws _ _ _ rfl isNaN_brink rfl).2.2.1 hle hback).mp h blurs_brink
  · refine ((comparison_laws _ _ _ rfl isNaN_brink rfl).2.2.1 hle hon).mpr fun h => ?_
    exact absurd h.1 (by decide)

/-- The whole number `2 ^ 53 + 1` is at most, and equal to, a floating-point number that is at most,
and equal to, the whole number `2 ^ 53`. -/
theorem comparison_not_transitive :
    ¬ (∀ a b c : Number, a.isNaN = false → b.isNaN = false → c.isNaN = false →
        compares "<=" (.number a) (.number b) → compares "<=" (.number b) (.number c) →
        compares "<=" (.number a) (.number c)) ∧
      ¬ (∀ a b c : Number, a.isNaN = false → b.isNaN = false → c.isNaN = false →
        compares "==" (.number a) (.number b) → compares "==" (.number b) (.number c) →
        compares "==" (.number a) (.number c)) := by
  obtain ⟨hleft, hright⟩ := blurs_brink.equal
  constructor
  · intro h
    have hle := h _ _ _ rfl isNaN_brink rfl ((compares_eq_iff_le rfl isNaN_brink).mp hleft).1
      ((compares_eq_iff_le isNaN_brink rfl).mp hright).1
    exact absurd ((compares_le_iff rfl).mp hle) (by decide)
  · intro h
    have heq := h _ _ _ rfl isNaN_brink rfl hleft hright
    exact absurd ((compares_eq_iff rfl).mp heq) (by decide)

end Number

end GraphRules
