import Mathlib
import DocMarks.Proofs.Binary64
import DocMarks.Proofs.Overflow

namespace DocMarks.Numeral

open Token
open Token.Pattern (maybe digits fraction exponent mem_maybe_iff mem_one_mul_iff)

variable {d e f w : List Char} {q : ℚ} {z : ℤ}

def DenotesFraction (f : List Char) (q : ℚ) : Prop :=
  (f = [] ∧ q = 0) ∨
    ∃ g ∈ digits, f = '.' :: g ∧ q = Nat.ofDigits 10 (g.reverse.map digit) / 10 ^ g.length

def DenotesExponent (e : List Char) (z : ℤ) : Prop :=
  (e = [] ∧ z = 0) ∨ ∃ c v, e = c :: v ∧ (c = 'e' ∨ c = 'E') ∧ Denotes v z

/-- The text is a sign, digits, a fraction and an exponent, some of which may be missing; `q` is the
number that they are in base ten. -/
def DenotesDecimal (w : List Char) (q : ℚ) : Prop :=
  ∃ s d f e x z, w = s ++ (d ++ (f ++ e)) ∧ s ∈ maybe Pattern.sign ∧ (∀ c ∈ d, c.isDigit) ∧
    DenotesFraction f x ∧ DenotesExponent e z ∧ (f = [] → d ≠ []) ∧
    q = (if s = ['-'] then -1 else 1) * (Nat.ofDigits 10 (d.reverse.map digit) + x) * 10 ^ z

theorem mem_exponent_iff : e ∈ exponent ↔
    ∃ c v, e = c :: v ∧ (c = 'e' ∨ c = 'E') ∧ v ∈ Kind.integer.pattern := by
  simp [exponent, mem_one_mul_iff, Kind.pattern, Pattern.integer]

theorem exists_denotesExponent (h : e ∈ maybe exponent) : ∃ z, DenotesExponent e z := by
  rcases mem_maybe_iff.1 h with rfl | h
  · exact ⟨0, .inl ⟨rfl, rfl⟩⟩
  · obtain ⟨c, v, rfl, mark, hv⟩ := mem_exponent_iff.1 h
    obtain ⟨z, denotes⟩ := exists_denotes hv
    exact ⟨z, .inr ⟨c, v, rfl, mark, denotes⟩⟩

theorem exists_denotesFraction (h : f ∈ maybe fraction) : ∃ q, DenotesFraction f q := by
  rcases mem_maybe_iff.1 h with rfl | h
  · exact ⟨0, .inl ⟨rfl, rfl⟩⟩
  · obtain ⟨c, g, rfl, point, hg⟩ := mem_one_mul_iff.1 h
    cases eq_of_beq point
    exact ⟨_, .inr ⟨g, hg, rfl, rfl⟩⟩

theorem exists_denotesDecimal (h : w ∈ Kind.float.pattern) : ∃ q, DenotesDecimal w q := by
  obtain ⟨s, d, f, e, rfl, hs, hd, hf, he, digit⟩ := exists_of_mem_float h
  obtain ⟨x, fraction⟩ := exists_denotesFraction hf
  obtain ⟨z, exponent⟩ := exists_denotesExponent he
  exact ⟨_, s, d, f, e, x, z, rfl, hs, hd, fraction, exponent, digit, rfl⟩

theorem DenotesExponent.exponent? (h : DenotesExponent e z) :
    e ∈ maybe exponent ∧ Numeral.exponent? e = some z := by
  rcases h with ⟨rfl, rfl⟩ | ⟨c, v, rfl, mark, denotes⟩
  · exact ⟨mem_maybe_iff.2 (.inl rfl), rfl⟩
  · refine ⟨mem_maybe_iff.2 (.inr (mem_exponent_iff.2 ⟨c, v, rfl, mark, ?_⟩)), ?_⟩
    · obtain ⟨s, hs, d, hd, rfl, -⟩ := denotes
      exact Language.append_mem_mul hs hd
    · rw [Numeral.exponent?, if_pos mark, integer?_of_denotes denotes]

theorem DenotesFraction.value_append {x : ℚ} (h : DenotesFraction f x) (d : List Char) :
    f ∈ maybe fraction ∧
      (value (d ++ f.tail) : ℚ) =
        (Nat.ofDigits 10 (d.reverse.map digit) + x) * 10 ^ f.tail.length := by
  rcases h with ⟨rfl, rfl⟩ | ⟨g, hg, rfl, rfl⟩
  · refine ⟨mem_maybe_iff.2 (.inl rfl), ?_⟩
    simp [value_eq_ofDigits, Nat.coe_ofDigits]
  · refine ⟨mem_maybe_iff.2 (.inr (mem_one_mul_iff.2 ⟨'.', g, rfl, rfl, hg⟩)), ?_⟩
    have scale : (10 : ℚ) ^ g.length ≠ 0 := by positivity
    rw [List.tail_cons, value_eq_ofDigits, List.reverse_append, List.map_append, Nat.ofDigits_append,
      List.length_map, List.length_reverse]
    push_cast [Nat.coe_ofDigits]
    field_simp
    ring

theorem DenotesDecimal.exists_binary64? (h : DenotesDecimal w q) :
    ∃ x, binary64? w = some x ∧ (x.toRat? = none ↔ Binary64.limit ≤ |q|) := by
  obtain ⟨s, d, f, e, x, z, rfl, hs, hd, fraction, exponent, digit, rfl⟩ := h
  obtain ⟨hf, value⟩ := fraction.value_append d
  obtain ⟨he, hz⟩ := exponent.exponent?
  refine ⟨_, binary64?_append hs hd hf he digit hz, ?_⟩
  have size : (0 : ℚ) ≤ Nat.ofDigits 10 (d.reverse.map Numeral.digit) + x :=
    nonneg_of_mul_nonneg_left (value ▸ Nat.cast_nonneg _) (by positivity)
  have sign : |if s = ['-'] then (-1 : ℚ) else 1| = 1 := by
    split <;> simp
  have scale : (10 : ℚ) ^ z = 10 ^ f.tail.length * 10 ^ (z - f.tail.length) := by
    rw [← zpow_natCast, ← zpow_add₀ (by norm_num), add_sub_cancel]
  rw [Binary64.toRat?_ofDecimal_eq_none_iff, value, abs_mul, abs_mul, sign, one_mul,
    abs_of_nonneg size, abs_of_nonneg (by positivity), scale, mul_assoc]

end DocMarks.Numeral
