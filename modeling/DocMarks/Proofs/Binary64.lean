import Mathlib
import DocMarks.Binary64.Basic

namespace DocMarks.Binary64

variable {n d k : ℕ}

def toRat? : Binary64 → Option ℚ
  | .finite negative units => some ((if negative then -1 else 1) * (units / 2 ^ 1074))
  | .infinite _ => none
  | .nan => none

theorem cast_two_pow (n : ℕ) : (Nat.pow 2 n : ℚ) = 2 ^ n := Nat.cast_pow 2 n

theorem cast_one : (one : ℚ) = 2 ^ 1074 := by rw [one, cast_two_pow]

theorem cast_one_pos : (0 : ℚ) < one := by
  rw [cast_one]
  positivity

theorem div_le_divNearest (n d : ℕ) : n / d ≤ divNearest n d := by
  rw [divNearest]
  split
  case isTrue => exact le_rfl
  case isFalse => split <;> omega

theorem divNearest_le (n d : ℕ) : divNearest n d ≤ n / d + 1 := by
  rw [divNearest]
  split
  case isTrue => exact Nat.le_succ _
  case isFalse => split <;> omega

theorem le_divNearest_iff (pos : 0 < d) (even : k % 2 = 0) :
    k ≤ divNearest n d ↔ 2 * (k * d) ≤ 2 * n + d := by
  have parts := Nat.div_add_mod' n d
  have less := Nat.mod_lt n pos
  rcases lt_trichotomy k (n / d + 1) with small | middle | large
  · have below := div_le_divNearest n d
    have := Nat.mul_le_mul_right d (Nat.lt_succ_iff.1 small)
    omega
  · -- of two equally near numbers the even one is `k`
    rw [middle, Nat.add_mul, divNearest]
    split
    case isTrue => omega
    case isFalse => split <;> omega
  · have above := divNearest_le n d
    have := Nat.mul_le_mul_right d (Nat.succ_le_iff.2 large)
    rw [Nat.succ_mul, Nat.add_mul] at this
    omega

def halfGap : ℕ := Nat.pow 2 2044

theorem overflow_eq : overflow = 2 ^ 54 * halfGap := by decide +kernel

theorem two_pow_mono {e f : ℕ} (h : e ≤ f) : Nat.pow 2 e ≤ Nat.pow 2 f :=
  Nat.pow_le_pow_right (by decide) h

theorem lt_two_pow_of_log2 {u e : ℕ} (h : u.log2 < e) : u < Nat.pow 2 e :=
  Nat.lt_log2_self.trans_le (two_pow_mono h)

theorem two_pow_le_of_log2 {u e : ℕ} (pos : 0 < e) (h : e ≤ u.log2) : Nat.pow 2 e ≤ u := by
  have nonzero : u ≠ 0 := by
    rintro rfl
    exact absurd h (Nat.not_le_of_lt pos)
  exact (two_pow_mono h).trans (Nat.log2_self_le nonzero)

theorem gap_pos (u : ℕ) : 0 < gap u := Nat.pow_pos (by decide)

theorem gap_eq_of_log2 {u : ℕ} (last : u.log2 = 2097) : gap u = 2 * halfGap := by
  rw [gap, last]
  decide +kernel

theorem mul_gap {u : ℕ} (h : 52 ≤ u.log2) : 2 ^ 52 * gap u = Nat.pow 2 u.log2 := by
  have exponent : 52 + (u.log2 - 52) = u.log2 := by omega
  calc
    2 ^ 52 * gap u = 2 ^ (52 + (u.log2 - 52)) := (Nat.pow_add ..).symm
    _ = Nat.pow 2 u.log2 := by rw [exponent]; rfl

def round (n d : ℕ) : ℕ := divNearest n (d * gap (n / d)) * gap (n / d)

theorem div_mul_gap (n d : ℕ) : n / (d * gap (n / d)) = n / d / gap (n / d) :=
  (Nat.div_div_eq_div_mul ..).symm

theorem round_le (n d : ℕ) : round n d ≤ n / d + gap (n / d) := by
  have nearest := Nat.mul_le_mul_right (gap (n / d)) (divNearest_le n (d * gap (n / d)))
  rw [div_mul_gap, Nat.add_mul] at nearest
  have := Nat.div_mul_le_self (n / d) (gap (n / d))
  rw [round]
  omega

theorem two_pow_le_round (h : 52 ≤ (n / d).log2) : Nat.pow 2 (n / d).log2 ≤ round n d := by
  have size : Nat.pow 2 (n / d).log2 ≤ n / d := two_pow_le_of_log2 (by omega) le_rfl
  have gaps : 2 ^ 52 ≤ divNearest n (d * gap (n / d)) := by
    refine le_trans ?_ (div_le_divNearest n (d * gap (n / d)))
    rw [div_mul_gap, Nat.le_div_iff_mul_le (gap_pos _), mul_gap h]
    exact size
  calc
    Nat.pow 2 (n / d).log2 = 2 ^ 52 * gap (n / d) := (mul_gap h).symm
    _ ≤ round n d := Nat.mul_le_mul_right _ gaps

/-- A quotient is rounded beyond the format from half a gap below the end of it on. -/
theorem overflow_le_round_iff (pos : 0 < d) :
    overflow ≤ round n d ↔ overflow * d ≤ n + halfGap * d := by
  have low : n / d * d ≤ n := Nat.div_mul_le_self n d
  have high : n < (n / d + 1) * d := Nat.lt_mul_of_div_lt (Nat.lt_succ_self _) pos
  rcases lt_trichotomy (n / d).log2 2097 with small | last | large
  · -- far enough below the end that a whole gap more does not reach it
    have size : n / d + 1 ≤ 2 ^ 53 * halfGap :=
      (lt_two_pow_of_log2 small).trans_eq (by decide +kernel)
    have step : gap (n / d) ≤ halfGap := two_pow_mono (show (n / d).log2 - 52 ≤ 2044 by omega)
    have rounded := round_le n d
    have below := Nat.mul_le_mul_right d size
    have some : 0 < halfGap * d := Nat.mul_pos (by decide +kernel) pos
    rw [Nat.mul_assoc] at below
    rw [overflow_eq, Nat.mul_assoc]
    exact iff_of_false (by omega) (by omega)
  · -- the end is an even number of gaps
    have step := gap_eq_of_log2 last
    have even := le_divNearest_iff (n := n) (Nat.mul_pos pos (gap_pos (n / d))) (k := 2 ^ 53) rfl
    have ends : overflow = 2 ^ 53 * gap (n / d) := by
      rw [step, overflow_eq]
      omega
    have swap : d * (2 * halfGap) = 2 * (halfGap * d) := by ring
    rw [round, ends, Nat.mul_le_mul_right_iff (gap_pos _), even, step, swap, Nat.mul_assoc,
      Nat.mul_assoc]
    omega
  · -- the power of two below the quotient is at the end already
    have reached : overflow ≤ Nat.pow 2 (n / d).log2 := two_pow_mono large
    have size : Nat.pow 2 (n / d).log2 ≤ n / d := two_pow_le_of_log2 (by omega) le_rfl
    have scaled := Nat.mul_le_mul_right d (reached.trans size)
    exact iff_of_true (reached.trans (two_pow_le_round (by omega))) (by omega)

def limit : ℚ := 2 ^ 1024 - 2 ^ 970

theorem cast_overflow : (overflow : ℚ) = 2 ^ 1024 * one := by
  have units : overflow = 2 ^ 1024 * one := by decide +kernel
  rw [units, Nat.cast_mul, Nat.cast_pow, Nat.cast_ofNat]

theorem cast_halfGap : (halfGap : ℚ) = 2 ^ 970 * one := by
  have units : halfGap = 2 ^ 970 * one := by decide +kernel
  rw [units, Nat.cast_mul, Nat.cast_pow, Nat.cast_ofNat]

theorem toRat?_ofRatio_eq_none_iff (negative : Bool) (n : ℕ) (pos : 0 < d) :
    (ofRatio negative n d).toRat? = none ↔ limit ≤ n / d := by
  have rounded : (ofRatio negative n d).toRat? = none ↔ overflow * d ≤ n * one + halfGap * d := by
    rw [← overflow_le_round_iff pos, ofRatio]
    split
    case isTrue finite => simpa [toRat?, round] using finite
    case isFalse infinite => simpa [toRat?, round] using infinite
  rw [rounded, le_div_iff₀ (Nat.cast_pos.2 pos), limit, ← mul_le_mul_iff_of_pos_right cast_one_pos,
    ← Nat.cast_le (α := ℚ), Nat.cast_add, Nat.cast_mul, Nat.cast_mul, Nat.cast_mul, cast_overflow,
    cast_halfGap]
  constructor <;> intro h <;> linarith

theorem one_le_limit : 1 ≤ limit := by
  have far : (2 : ℚ) ^ 970 + 1 ≤ 2 ^ 1024 := by
    have whole : 2 ^ 970 + 1 ≤ 2 ^ 1024 := by decide +kernel
    exact_mod_cast whole
  exact le_sub_iff_add_le'.2 far

theorem limit_le_ten_pow : limit ≤ 10 ^ (310 : ℤ) := by
  have far : (2 : ℚ) ^ 1024 ≤ 10 ^ 310 := by
    have whole : 2 ^ 1024 ≤ 10 ^ 310 := by decide +kernel
    exact_mod_cast whole
  have some : (0 : ℚ) ≤ 2 ^ 970 := by positivity
  rw [limit]
  exact (sub_le_self _ some).trans far

theorem toDigits_bounds {digits : ℕ} (pos : digits ≠ 0) :
    10 ^ ((Nat.toDigits 10 digits).length - 1) ≤ digits ∧
      digits < 10 ^ (Nat.toDigits 10 digits).length := by
  have some : 0 < (Nat.toDigits 10 digits).length := Nat.length_toDigits_pos
  refine ⟨?_, (Nat.length_toDigits_le_iff (by decide) some).1 le_rfl⟩
  by_contra less
  rcases Nat.eq_zero_or_pos ((Nat.toDigits 10 digits).length - 1) with single | more
  · rw [single] at less
    omega
  · have := (Nat.length_toDigits_le_iff (by decide) more).2 (not_le.1 less)
    omega

theorem decimal_bounds {digits : ℕ} (pos : digits ≠ 0) (exponent : ℤ) :
    let leading := exponent + (Nat.toDigits 10 digits).length
    (10 : ℚ) ^ (leading - 1) ≤ digits * 10 ^ exponent ∧
      (digits : ℚ) * 10 ^ exponent < 10 ^ leading := by
  intro leading
  have ten : (10 : ℚ) ≠ 0 := by norm_num
  have scale : (0 : ℚ) < 10 ^ exponent := by positivity
  have some : 0 < (Nat.toDigits 10 digits).length := Nat.length_toDigits_pos
  obtain ⟨low, high⟩ := toDigits_bounds pos
  rw [← Nat.cast_le (α := ℚ), Nat.cast_pow, Nat.cast_ofNat, ← zpow_natCast, Nat.cast_sub some] at low
  rw [← Nat.cast_lt (α := ℚ), Nat.cast_pow, Nat.cast_ofNat, ← zpow_natCast] at high
  have first : leading - 1 = ((Nat.toDigits 10 digits).length - (1 : ℕ) : ℤ) + exponent := by
    simp only [leading]
    omega
  have all : leading = (Nat.toDigits 10 digits).length + exponent := add_comm ..
  rw [first, all, zpow_add₀ ten, zpow_add₀ ten]
  exact ⟨mul_le_mul_of_nonneg_right low scale.le, mul_lt_mul_of_pos_right high scale⟩

theorem cast_ten_pow {e : ℤ} (h : 0 ≤ e) : (Nat.pow 10 e.toNat : ℚ) = 10 ^ e := by
  have power : ((10 ^ e.toNat : ℕ) : ℚ) = 10 ^ e := by
    rw [Nat.cast_pow, Nat.cast_ofNat, ← zpow_natCast, Int.toNat_of_nonneg h]
  exact power

/-- A decimal is beyond the format exactly if it is not below the limit. -/
theorem toRat?_ofDecimal_eq_none_iff (negative : Bool) (digits : ℕ) (exponent : ℤ) :
    (ofDecimal negative digits exponent).toRat? = none ↔ limit ≤ digits * 10 ^ exponent := by
  have ten : (1 : ℚ) ≤ 10 := by norm_num
  rw [ofDecimal]
  split
  case isTrue zero =>
    have below : ¬ limit ≤ 0 := not_le.2 (one_pos.trans_le one_le_limit)
    simpa [zero, toRat?] using below
  case isFalse pos =>
    obtain ⟨low, high⟩ := decimal_bounds pos exponent
    simp only
    split
    case isTrue large =>
      have far : (10 : ℚ) ^ (310 : ℤ) ≤ 10 ^ (exponent + (Nat.toDigits 10 digits).length - 1) :=
        zpow_le_zpow_right₀ ten (by omega)
      exact iff_of_true rfl (limit_le_ten_pow.trans (far.trans low))
    case isFalse =>
      split
      case isTrue small =>
        have near : (10 : ℚ) ^ (exponent + (Nat.toDigits 10 digits).length) ≤ 1 :=
          zpow_le_one_of_nonpos₀ ten (by omega)
        exact iff_of_false (Option.some_ne_none _)
          (not_le.2 (high.trans_le (near.trans one_le_limit)))
      case isFalse =>
        split
        case isTrue whole =>
          rw [toRat?_ofRatio_eq_none_iff _ _ one_pos, Nat.cast_one, div_one, Nat.cast_mul,
            cast_ten_pow whole]
        case isFalse fraction =>
          have some : 0 < Nat.pow 10 (-exponent).toNat := Nat.pow_pos (by decide)
          rw [toRat?_ofRatio_eq_none_iff _ _ some, cast_ten_pow (by omega), zpow_neg, div_inv_eq_mul]

end DocMarks.Binary64
