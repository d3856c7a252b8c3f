import Mathlib
import DocMarks.Proofs.Binary64
import DocMarks.Proofs.Literal

namespace DocMarks

namespace Binary64

def towardZero (q : ℚ) : ℤ := if 0 ≤ q then ⌊q⌋ else ⌈q⌉

variable {q : ℚ} {z : ℤ}

theorem towardZero_neg (q : ℚ) : towardZero (-q) = -towardZero q := by
  rcases lt_trichotomy q 0 with negative | rfl | positive
  · rw [towardZero, towardZero, if_pos (by linarith), if_neg (by linarith), Int.floor_neg]
  · rfl
  · rw [towardZero, towardZero, if_neg (by linarith), if_pos positive.le, Int.ceil_neg]

theorem le_of_le_towardZero (positive : 0 < z) (h : z ≤ towardZero q) : z ≤ q := by
  rw [towardZero] at h
  split at h
  case isTrue => exact Int.le_floor.1 h
  case isFalse negative =>
    have above : ⌈q⌉ ≤ 0 := Int.ceil_le.2 (by push_cast; linarith)
    omega

theorem le_of_towardZero_le (negative : z < 0) (h : towardZero q ≤ z) : q ≤ z := by
  have opposite := le_of_le_towardZero (z := -z) (q := -q) (by omega)
    (by rw [towardZero_neg]; omega)
  push_cast at opposite
  linarith

theorem cast_signed (negative : Bool) (n : ℕ) :
    (signed negative n : ℚ) = (if negative then -1 else 1) * n := by
  cases negative with
  | false => simp [signed]
  | true => simp [signed]

theorem toRat?_finite (negative : Bool) (units : ℕ) :
    toRat? (.finite negative units) = some ((signed negative units : ℚ) / one) := by
  rw [toRat?, ← cast_one, cast_signed, mul_div_assoc]

theorem whole_eq_towardZero {negative : Bool} {units : Nat}
    (h : toRat? (.finite negative units) = some q) : whole negative units = towardZero q := by
  have size : towardZero ((units : ℚ) / one) = (units / one : Nat) := by
    rw [towardZero, if_pos (by positivity)]
    exact Rat.floor_natCast_div_natCast units one
  rw [toRat?_finite, Option.some.injEq] at h
  rw [← h]
  cases negative with
  | false => rw [whole, signed, signed, if_neg Bool.false_ne_true, if_neg Bool.false_ne_true,
      Int.cast_natCast, size]
  | true => rw [whole, signed, signed, if_pos rfl, if_pos rfl, Int.cast_neg, Int.cast_natCast,
      neg_div, towardZero_neg, size]

theorem signed_mul_one (negative : Bool) (n : ℕ) :
    (signed negative (n * one) : ℚ) / one = signed negative n := by
  rw [div_eq_iff cast_one_pos.ne', cast_signed, cast_signed, Nat.cast_mul, mul_assoc]

theorem toRat?_trunc {x : Binary64} (h : x.toRat? = some q) :
    x.trunc.toRat? = some (towardZero q : ℚ) := by
  cases x with
  | finite negative units =>
    rw [← whole_eq_towardZero h, trunc, toRat?_finite, signed_mul_one, whole]
  | infinite negative => cases h
  | nan => cases h

theorem le_iff {x y : Binary64} {p : ℚ} (hx : x.toRat? = some p) (hy : y.toRat? = some q) :
    x.le y ↔ p ≤ q := by
  cases x with
  | finite m u =>
    cases y with
    | finite n v =>
      rw [toRat?_finite, Option.some.injEq] at hx hy
      rw [← hx, ← hy, le, decide_eq_true_iff, div_le_div_iff_of_pos_right cast_one_pos, Int.cast_le]
    | infinite n => cases hy
    | nan => cases hy
  | infinite m => cases hx
  | nan => cases hx

theorem lt_iff {x y : Binary64} {p : ℚ} (hx : x.toRat? = some p) (hy : y.toRat? = some q) :
    x.lt y ↔ p < q := by
  rw [lt, Bool.and_eq_true, Bool.not_eq_true', ← Bool.not_eq_true, le_iff hx hy, le_iff hy hx,
    lt_iff_le_not_ge]

theorem isFinite_iff {x : Binary64} : x.isFinite ↔ ∃ q, x.toRat? = some q := by
  cases x with
  | finite negative units => exact iff_of_true rfl ⟨_, rfl⟩
  | infinite negative => exact iff_of_false nofun nofun
  | nan => exact iff_of_false nofun nofun

/-- The first of two whole numbers is nearer than the second; to an infinite number it is the one on
its side. -/
def Nearer : Binary64 → ℤ → ℤ → Prop
  | .infinite true, near, far => near < far
  | .infinite false, near, far => far < near
  | x, near, far => ∃ q, x.toRat? = some q ∧ |q - near| < |q - far|

end Binary64

namespace Numeral

variable {z : Int}

theorem clamp_toInt (i : Int64) : clamp i.toInt = i := by
  have low := i.minValue_le_toInt
  have high := i.toInt_le
  rw [clamp, if_neg (by omega), if_neg (by omega), Int64.ofInt_toInt]

theorem toInt_clamp (low : -2 ^ 63 ≤ z) (high : z < 2 ^ 63) : (clamp z).toInt = z := by
  rw [← Int64.toInt_ofInt_of_le low high, clamp_toInt]

theorem clamp_of_lt (h : z < -2 ^ 63) : clamp z = Int64.minValue := if_pos h

theorem clamp_of_le (h : 2 ^ 63 ≤ z) : clamp z = Int64.maxValue := by
  have low : Int64.minValue.toInt = -2 ^ 63 := rfl
  have high : Int64.maxValue.toInt = 2 ^ 63 - 1 := rfl
  rw [clamp, if_neg (by omega), if_pos (by omega)]

end Numeral

namespace Literal

open Binary64

variable {x : Binary64} {i : Int64} {q : ℚ}

theorem toRat?_bound (negative : Bool) :
    (bound negative).toRat? = some (if negative then -2 ^ 63 else 2 ^ 63) := by
  rw [bound, toRat?_finite, signed_mul_one]
  cases negative with
  | false => norm_num [signed]
  | true => norm_num [signed]

/-- The test on floats is the test on whole numbers: both ends of the range are floats. -/
theorem fits_iff :
    fits x ↔ ∃ q, x.toRat? = some q ∧ -2 ^ 63 ≤ towardZero q ∧ towardZero q < 2 ^ 63 := by
  rw [fits, Bool.and_eq_true, Bool.and_eq_true, isFinite_iff]
  constructor
  · rintro ⟨⟨⟨q, value⟩, low⟩, high⟩
    rw [le_iff (toRat?_bound true) (toRat?_trunc value)] at low
    rw [lt_iff (toRat?_trunc value) (toRat?_bound false)] at high
    exact ⟨q, value, by exact_mod_cast low, by exact_mod_cast high⟩
  · rintro ⟨q, value, low, high⟩
    refine ⟨⟨⟨q, value⟩, ?_⟩, ?_⟩
    · rw [le_iff (toRat?_bound true) (toRat?_trunc value)]
      exact_mod_cast low
    · rw [lt_iff (toRat?_trunc value) (toRat?_bound false)]
      exact_mod_cast high

theorem saturate_trunc (h : x.toRat? = some q) :
    saturate x.trunc = Numeral.clamp (towardZero q) := by
  cases x with
  | finite negative units =>
    rw [← whole_eq_towardZero h, trunc, saturate, whole, whole,
      Nat.mul_div_cancel _ (Nat.cast_pos.1 cast_one_pos)]
  | infinite negative => cases h
  | nan => cases h

theorem truncate?_eq_some_iff :
    truncate? x = some i ↔ ∃ q, x.toRat? = some q ∧ i.toInt = towardZero q := by
  rw [truncate?, Option.ite_none_right_eq_some, fits_iff, Option.some.injEq]
  constructor
  · rintro ⟨⟨q, value, low, high⟩, rfl⟩
    refine ⟨q, value, ?_⟩
    rw [saturate_trunc value, Numeral.toInt_clamp low high]
  · rintro ⟨q, value, whole⟩
    have low := i.le_toInt
    have high := i.toInt_lt
    refine ⟨⟨q, value, by omega, by omega⟩, ?_⟩
    rw [saturate_trunc value, ← whole, Numeral.clamp_toInt]

theorem coerce_float_integer (x : Binary64) (text : String) :
    (Literal.float x).coerce text .integer =
      match truncate? x with
      | some i => .ok (.int i)
      | none => .error ⟨text, .integer⟩ := rfl

theorem saturate_of_truncate? (h : truncate? x = some i) : saturate x.trunc = i := by
  rw [truncate?, Option.ite_none_right_eq_some] at h
  exact Option.some.inj h.2

theorem out_of_range_of_refused (value : x.toRat? = some q) (h : truncate? x = none) :
    ¬ (-2 ^ 63 ≤ towardZero q ∧ towardZero q < 2 ^ 63) := by
  intro range
  rw [truncate?, if_pos (fits_iff.2 ⟨q, value, range⟩)] at h
  cases h

theorem saturate_of_refused (number : x ≠ .nan) (h : truncate? x = none) :
    (saturate x.trunc = Int64.minValue ∧ x.Nearer (-2 ^ 63) (2 ^ 63 - 1)) ∨
      (saturate x.trunc = Int64.maxValue ∧ x.Nearer (2 ^ 63 - 1) (-2 ^ 63)) := by
  cases x with
  | nan => exact absurd rfl number
  | infinite negative =>
    cases negative with
    | true => exact .inl ⟨rfl, show (-2 ^ 63 : ℤ) < 2 ^ 63 - 1 by decide⟩
    | false => exact .inr ⟨rfl, show (-2 ^ 63 : ℤ) < 2 ^ 63 - 1 by decide⟩
  | finite negative units =>
    obtain ⟨q, value⟩ : ∃ q, toRat? (.finite negative units) = some q := ⟨_, rfl⟩
    have range := out_of_range_of_refused value h
    rw [saturate_trunc value]
    by_cases low : towardZero q < -2 ^ 63
    · have below : q ≤ (-2 ^ 63 - 1 : ℤ) := le_of_towardZero_le (by decide) (by omega)
      push_cast at below
      refine .inl ⟨Numeral.clamp_of_lt low, q, value, ?_⟩
      push_cast
      rw [abs_of_nonpos (by linarith), abs_of_nonpos (by linarith)]
      linarith
    · have above : (2 ^ 63 : ℤ) ≤ q := le_of_le_towardZero (by decide) (by omega)
      push_cast at above
      refine .inr ⟨Numeral.clamp_of_le (by omega), q, value, ?_⟩
      push_cast
      rw [abs_of_nonneg (by linarith), abs_of_nonneg (by linarith)]
      linarith

/-- A float is taken for an integer exactly if its whole part is in range, and then as its whole
part; otherwise it is refused with its text. As a key it is the same number where it is taken, zero
where it is no number, and the nearer end of the range elsewhere. -/
theorem float_truncates_in_range (x : Binary64) (text : String) :
    let read := (Literal.float x).coerce text .integer
    let key := (Literal.float x).toKey
    (∀ i : Int64, read = .ok (.int i) ↔ ∃ q, x.toRat? = some q ∧ i.toInt = towardZero q) ∧
    ((∃ i : Int64, read = .ok (.int i)) ↔
      ∃ q, x.toRat? = some q ∧ -2 ^ 63 ≤ towardZero q ∧ towardZero q ≤ 2 ^ 63 - 1) ∧
    ((∀ i : Int64, read ≠ .ok (.int i)) → read = .error ⟨text, .integer⟩) ∧
    (∀ i : Int64, read = .ok (.int i) → key = .int i) ∧
    (x = .nan → key = .int 0) ∧
    ((∀ i : Int64, read ≠ .ok (.int i)) → x ≠ .nan →
      (key = .int Int64.minValue ∧ x.Nearer (-2 ^ 63) (2 ^ 63 - 1)) ∨
        (key = .int Int64.maxValue ∧ x.Nearer (2 ^ 63 - 1) (-2 ^ 63))) := by
  intro read key
  have taken (i : Int64) : read = .ok (.int i) ↔ truncate? x = some i := by
    simp only [read, coerce_float_integer]
    cases truncate? x with
    | none => simp
    | some j => simp
  have refused (h : ∀ i, read ≠ .ok (.int i)) : truncate? x = none :=
    Option.eq_none_iff_forall_ne_some.2 fun i some => h i ((taken i).2 some)
  refine ⟨fun i => (taken i).trans truncate?_eq_some_iff, ?_, ?_, ?_, ?_, ?_⟩
  · simp only [taken, truncate?_eq_some_iff]
    constructor
    · rintro ⟨i, q, value, whole⟩
      have low := i.le_toInt
      have high := i.toInt_lt
      exact ⟨q, value, by omega, by omega⟩
    · rintro ⟨q, value, low, high⟩
      exact ⟨.ofInt (towardZero q), q, value, Int64.toInt_ofInt_of_le low (by omega)⟩
  · intro h
    simp only [read, coerce_float_integer, refused h]
  · intro i h
    rw [← saturate_of_truncate? ((taken i).1 h)]
    rfl
  · rintro rfl
    rfl
  · intro h number
    exact (saturate_of_refused number (refused h)).imp (.imp_left (congrArg Key.int))
      (.imp_left (congrArg Key.int))

theorem float_truncates_in_range_ends :
    let low : Binary64 := .finite true (2 ^ 63 * one)
    let high : Binary64 := .finite false (2 ^ 63 * one)
    Numeral.binary64? "-9223372036854775808.5".toList = some low ∧
      Numeral.binary64? "9223372036854775807.5".toList = some high ∧
      (∃ q, low.toRat? = some q ∧ Int64.minValue.toInt = towardZero q) ∧
      (Literal.float low).toKey = .int Int64.minValue ∧
      (Literal.float high).coerce "9223372036854775807.5" .integer =
        .error ⟨"9223372036854775807.5", .integer⟩ ∧
      high.Nearer (2 ^ 63 - 1) (-2 ^ 63) ∧ (Literal.float .nan).toKey = .int 0 := by
  intro low high
  have taken : (Literal.float low).coerce "-9223372036854775808.5" .integer =
      .ok (.int Int64.minValue) := by
    have least : truncate? low = some Int64.minValue := by decide +kernel
    simp only [coerce_float_integer, least]
  have refused (i : Int64) : (Literal.float high).coerce "9223372036854775807.5" .integer ≠
      .ok (.int i) := by
    have out : truncate? high = none := by decide +kernel
    simp [coerce_float_integer, out]
  have last : (Literal.float high).toKey = .int Int64.maxValue := by decide +kernel
  obtain ⟨value, -, -, same, -⟩ := float_truncates_in_range low "-9223372036854775808.5"
  obtain ⟨-, -, error, -, -, ends⟩ := float_truncates_in_range high "9223372036854775807.5"
  obtain ⟨-, -, -, -, zero, -⟩ := float_truncates_in_range .nan ""
  refine ⟨by decide +kernel, by decide +kernel, (value _).1 taken, same _ taken, error refused, ?_,
    zero rfl⟩
  rcases ends refused (by decide) with ⟨first, -⟩ | ⟨-, nearer⟩
  · exact absurd (last.symm.trans first) (by decide)
  · exact nearer

end Literal

end DocMarks
