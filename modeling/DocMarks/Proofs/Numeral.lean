import DocMarks.Numeral
import DocMarks.Proofs.Token.Lexeme

namespace DocMarks

namespace Numeral

def printedSign (z : Int) : List Char := if z < 0 then ['-'] else []

theorem toList_toString (z : Int) :
    (toString z).toList = printedSign z ++ Nat.toDigits 10 z.natAbs := by
  rw [Int.toString_eq_repr, Int.repr_eq_if, printedSign]
  split
  case isTrue h =>
    have size : z.natAbs = z.toNat := by omega
    rw [if_neg (by omega), size, Nat.toList_repr, List.nil_append]
  case isFalse h =>
    have size : z.natAbs = (-z).toNat := by omega
    rw [if_pos (by omega), size, String.toList_append, Nat.toList_repr]
    rfl

theorem isDigit_toDigits {n : Nat} {c : Char} (h : c ∈ Nat.toDigits 10 n) : c.isDigit :=
  Nat.isDigit_of_mem_toDigits (by decide) (by decide) h

theorem toDigits_eq_cons (n : Nat) : ∃ c cs, Nat.toDigits 10 n = c :: cs ∧ c.isDigit := by
  obtain ⟨c, cs, digits⟩ := List.exists_cons_of_ne_nil (Nat.toDigits_ne_nil (n := n) (b := 10))
  exact ⟨c, cs, digits, isDigit_toDigits (digits ▸ List.mem_cons_self)⟩

theorem natural?_toDigits (n : Nat) : natural? (Nat.toDigits 10 n) = some n := by
  rw [natural?, if_pos]
  · exact congrArg some Nat.ofDigitChars_ten_toDigits
  · exact ⟨Nat.toDigits_ne_nil, List.all_eq_true.2 fun _ => isDigit_toDigits⟩

theorem sign_of_isDigit {c : Char} (cs : List Char) (h : c.isDigit) :
    sign (c :: cs) = (false, c :: cs) := by
  rw [sign.eq_def]
  split
  case h_1 eq =>
    cases eq
    exact absurd h (by decide)
  case h_2 eq =>
    cases eq
    exact absurd h (by decide)
  case h_3 => rfl

theorem integer?_toString (z : Int) : integer? (toString z).toList = some z := by
  rw [toList_toString, printedSign]
  split
  case isTrue h =>
    rw [List.singleton_append, integer?, sign]
    have negative : -(z.natAbs : Int) = z := by omega
    simpa [natural?_toDigits] using negative
  case isFalse h =>
    obtain ⟨c, cs, digits, hc⟩ := toDigits_eq_cons z.natAbs
    rw [List.nil_append, integer?, digits, sign_of_isDigit cs hc]
    have positive : (z.natAbs : Int) = z := by omega
    simpa [← digits, natural?_toDigits] using positive

theorem int64?_toString (i : Int64) : int64? (toString i.toInt).toList = some i := by
  rw [int64?, integer?_toString, Option.bind_some, fit?, if_pos ⟨i.minValue_le_toInt, i.toInt_le⟩,
    Int64.ofInt_toInt]

end Numeral

namespace Token

open Numeral

variable {rest : List Char}

theorem starts_number_of_isDigit {c : Char} (h : c.isDigit) :
    isGap c = false ∧ c ≠ '"' ∧ isNameStart c = false := by
  have digits : ∀ n < 58, 48 ≤ n → isGap (Char.ofNat n) = false ∧ Char.ofNat n ≠ '"' ∧
      isNameStart (Char.ofNat n) = false := by
    decide
  have range := Char.isDigit_iff_toNat.1 h
  have digit := digits c.toNat (Nat.lt_succ_of_le range.2) range.1
  rwa [Char.ofNat_toNat] at digit

theorem toString_eq_cons (z : Int) :
    ∃ c cs, (toString z).toList = c :: cs ∧ isGap c = false ∧ c ≠ '"' ∧ isNameStart c = false := by
  rw [toList_toString, printedSign]
  split
  · exact ⟨'-', _, rfl, by decide⟩
  · obtain ⟨c, cs, digits, hc⟩ := toDigits_eq_cons z.natAbs
    exact ⟨c, cs, digits, starts_number_of_isDigit hc⟩

theorem fractionOf_of_delimited (delimited : Delimited rest) : fractionOf rest = [] := by
  rw [fractionOf.eq_def]
  split
  case h_1 => exact absurd (delimited '.' rfl) (by decide)
  case h_2 => rfl

theorem exponentOf_of_delimited (delimited : Delimited rest) : exponentOf rest = [] := by
  cases rest with
  | nil => rfl
  | cons c rest =>
    rw [exponentOf]
    apply if_neg
    rintro ⟨rfl | rfl, -⟩
    · exact absurd (delimited 'e' rfl) (by decide)
    · exact absurd (delimited 'E' rfl) (by decide)

theorem number?_toString (z : Int) (delimited : Delimited rest) :
    number? ((toString z).toList ++ rest) = some (.integer, (toString z).toList) := by
  have digits := Nat.toDigits_ne_nil (b := 10) (n := z.natAbs)
  have whole : digitsOf (Nat.toDigits 10 z.natAbs ++ rest) = Nat.toDigits 10 z.natAbs :=
    delimited.takeWhile_append (fun _ => isDigit_of_isDelimiter) (fun _ => isDigit_toDigits)
  have signed : signOf (printedSign z ++ (Nat.toDigits 10 z.natAbs ++ rest)) = printedSign z := by
    rw [printedSign]
    split
    · rfl
    · obtain ⟨c, cs, h, hc⟩ := toDigits_eq_cons z.natAbs
      rw [h, List.nil_append, List.cons_append, signOf]
      apply if_neg
      rintro (rfl | rfl)
      · exact absurd hc (by decide)
      · exact absurd hc (by decide)
  rw [toList_toString, List.append_assoc, number?]
  simp only [signed, List.drop_left, whole, digits, fractionOf_of_delimited delimited,
    List.length_nil, List.drop_zero, exponentOf_of_delimited delimited]
  simp

end Token
end DocMarks
