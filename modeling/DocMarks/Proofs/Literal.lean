import DocMarks.Proofs.Token.Longest
import DocMarks.Rule

namespace DocMarks

open Token

namespace Numeral

open Token.Pattern (maybe digits fraction exponent mem_maybe_iff mem_digits_iff mem_one_mul_iff
  mem_kstar_one_iff)

variable {s d f e w rest : List Char}

theorem sign_append (hs : s ∈ maybe Pattern.sign) (free : ∀ c ∈ rest.head?, c ≠ '+' ∧ c ≠ '-') :
    sign (s ++ rest) = (s == ['-'], rest) := by
  rcases mem_maybe_iff.1 hs with rfl | ⟨c, hc, rfl⟩
  · cases rest with
    | nil => rfl
    | cons c rest =>
      have := free c rfl
      simp [sign, this]
  · have mark : c = '+' ∨ c = '-' := by simpa using hc
    rcases mark with rfl | rfl
    · rfl
    · rfl

theorem integer?_append (hs : s ∈ maybe Pattern.sign) (hd : d ∈ digits) :
    integer? (s ++ d) = some (if s = ['-'] then -(value d : Int) else value d) := by
  have free := ne_sign_of_mem_digits hd []
  rw [List.append_nil] at free
  obtain ⟨nonempty, all⟩ := mem_digits_iff.1 hd
  have number : natural? d = some (value d) := if_pos ⟨nonempty, List.all_eq_true.2 all⟩
  rw [integer?, sign_append hs free]
  simp [number]

theorem exists_exponent? (h : e ∈ maybe exponent) : ∃ z, exponent? e = some z := by
  rcases mem_maybe_iff.1 h with rfl | h
  · exact ⟨0, rfl⟩
  · obtain ⟨c, v, rfl, mark, hv⟩ := mem_one_mul_iff.1 h
    obtain ⟨s, hs, d, hd, rfl⟩ := Language.mem_mul.1 hv
    rw [exponent?, if_pos (by simpa using mark)]
    exact ⟨_, integer?_append hs hd⟩

theorem takeWhile_isDigit_append (hd : ∀ c ∈ d, c.isDigit) (stop : digitsOf rest = []) :
    (d ++ rest).takeWhile Char.isDigit = d ∧ (d ++ rest).dropWhile Char.isDigit = rest := by
  have taken : (d ++ rest).takeWhile Char.isDigit = d := by
    rw [List.takeWhile_append_of_pos hd, ← digitsOf, stop, List.append_nil]
  have all := List.takeWhile_append_dropWhile (p := Char.isDigit) (l := d ++ rest)
  rw [taken] at all
  exact ⟨taken, List.append_cancel_left all⟩

theorem maybe_exponent_stops (he : e ∈ maybe exponent) :
    digitsOf e = [] ∧ ∀ cs, e ≠ '.' :: cs := by
  rcases mem_maybe_iff.1 he with rfl | he
  · exact ⟨rfl, fun cs h => nomatch h⟩
  · obtain ⟨stop, -⟩ := exponent_stops he []
    rw [List.append_nil] at stop
    refine ⟨stop, ?_⟩
    rintro cs rfl
    obtain ⟨c, v, h, mark, -⟩ := mem_one_mul_iff.1 he
    cases h
    exact absurd mark (by decide)

theorem exists_of_mem_float (h : w ∈ Kind.float.pattern) :
    ∃ s d f e, w = s ++ (d ++ (f ++ e)) ∧ s ∈ maybe Pattern.sign ∧ (∀ c ∈ d, c.isDigit) ∧
      f ∈ maybe fraction ∧ e ∈ maybe exponent ∧ (f = [] → d ≠ []) := by
  rcases h with h | h
  · obtain ⟨s, hs, v, hv, rfl⟩ := Language.mem_mul.1 h
    obtain ⟨d, hd, f, hf, rfl⟩ := Language.mem_mul.1 hv
    have some : f ≠ [] := by
      obtain ⟨c, g, rfl, -⟩ := mem_one_mul_iff.1 hf
      exact List.cons_ne_nil c g
    exact ⟨s, d, f, [], by rw [List.append_nil], hs, mem_kstar_one_iff.1 hd,
      mem_maybe_iff.2 (.inr hf), mem_maybe_iff.2 (.inl rfl), fun none => absurd none some⟩
  · obtain ⟨s, hs, v, hv, rfl⟩ := Language.mem_mul.1 h
    obtain ⟨d, hd, u, hu, rfl⟩ := Language.mem_mul.1 hv
    obtain ⟨f, hf, e, he, rfl⟩ := Language.mem_mul.1 hu
    obtain ⟨some, all⟩ := mem_digits_iff.1 hd
    exact ⟨s, d, f, e, rfl, hs, all, hf, mem_maybe_iff.2 (.inr he), fun _ => some⟩

theorem binary64?_whole {z : Int} (hs : s ∈ maybe Pattern.sign) (hd : d ∈ digits)
    (he : e ∈ maybe exponent) (hz : exponent? e = some z) :
    binary64? (s ++ (d ++ e)) = some (.ofDecimal (s == ['-']) (value d) z) := by
  obtain ⟨nonempty, all⟩ := mem_digits_iff.1 hd
  obtain ⟨stop, point⟩ := maybe_exponent_stops he
  obtain ⟨taken, dropped⟩ := takeWhile_isDigit_append all stop
  rw [binary64?, sign_append hs (ne_sign_of_mem_digits hd e)]
  simp only [taken, dropped]
  -- by `point`, what follows the digits is not taken for a fraction
  simp [hz, nonempty]

theorem binary64?_pointed {z : Int} (hs : s ∈ maybe Pattern.sign) (hd : ∀ c ∈ d, c.isDigit)
    (hf : '.' :: f ∈ fraction) (he : e ∈ maybe exponent) (hz : exponent? e = some z) :
    binary64? (s ++ (d ++ ('.' :: f ++ e))) =
      some (.ofDecimal (s == ['-']) (value (d ++ f)) (z - f.length)) := by
  have free : ∀ c ∈ (d ++ ('.' :: f ++ e)).head?, c ≠ '+' ∧ c ≠ '-' := by
    cases d with
    | nil => exact (fraction_stops hf e).2
    | cons c d =>
      rintro _ ⟨⟩
      exact ne_sign_of_isDigit (hd c (.head _))
  obtain ⟨taken, dropped⟩ := takeWhile_isDigit_append hd (fraction_stops hf e).1
  obtain ⟨_, _, ⟨⟩, -, hg⟩ := mem_one_mul_iff.1 hf
  obtain ⟨nonempty, all⟩ := mem_digits_iff.1 hg
  obtain ⟨taken', dropped'⟩ := takeWhile_isDigit_append all (maybe_exponent_stops he).1
  rw [binary64?, sign_append hs free]
  simp only [taken, dropped]
  rw [List.cons_append]
  simp [taken', dropped', hz, nonempty]

theorem binary64?_append {z : Int} (hs : s ∈ maybe Pattern.sign) (hd : ∀ c ∈ d, c.isDigit)
    (hf : f ∈ maybe fraction) (he : e ∈ maybe exponent) (digit : f = [] → d ≠ [])
    (hz : exponent? e = some z) :
    binary64? (s ++ (d ++ (f ++ e))) =
      some (.ofDecimal (s == ['-']) (value (d ++ f.tail)) (z - f.tail.length)) := by
  rcases mem_maybe_iff.1 hf with rfl | hf
  · have whole := binary64?_whole hs (mem_digits_iff.2 ⟨digit rfl, hd⟩) he hz
    simpa using whole
  · obtain ⟨c, f, rfl, point, -⟩ := mem_one_mul_iff.1 hf
    cases eq_of_beq point
    exact binary64?_pointed hs hd hf he hz

theorem exists_binary64? (h : w ∈ Kind.float.pattern) : ∃ x, binary64? w = some x := by
  obtain ⟨s, d, f, e, rfl, hs, hd, hf, he, digit⟩ := exists_of_mem_float h
  obtain ⟨z, hz⟩ := exists_exponent? he
  exact ⟨_, binary64?_append hs hd hf he digit hz⟩

def Fits (cs : List Char) : Prop := ∃ z, integer? cs = some z ∧ -2 ^ 63 ≤ z ∧ z < 2 ^ 63

theorem fit?_eq_none_iff {z : Int} : fit? z = none ↔ ¬ (-2 ^ 63 ≤ z ∧ z < 2 ^ 63) := by
  have low : Int64.minValue.toInt = -2 ^ 63 := rfl
  have high : Int64.maxValue.toInt = 2 ^ 63 - 1 := rfl
  rw [fit?, low, high, ite_eq_right_iff]
  simp only [reduceCtorEq, imp_false]
  omega

theorem fit?_eq_some_iff {z : Int} {i : Int64} : fit? z = some i ↔ i.toInt = z := by
  have low := i.minValue_le_toInt
  have high := i.toInt_le
  rw [fit?]
  constructor
  · intro h
    split at h
    case isTrue range =>
      cases h
      exact Int64.toInt_ofInt_of_le range.1 (Int.lt_add_one_of_le range.2)
    case isFalse => cases h
  · rintro rfl
    rw [if_pos ⟨low, high⟩, Int64.ofInt_toInt]

theorem int64?_eq_none_iff : int64? w = none ↔ ¬ Fits w := by
  rw [int64?, Fits]
  cases integer? w with
  | none => simp
  | some z => simpa using fit?_eq_none_iff

end Numeral

namespace Token

variable {kind : Kind} {text : String}

theorem mem_pattern_of_munch {cs w : List Char} (h : Munch cs kind w) (token : kind ≠ .stray) :
    w ∈ kind.pattern := by
  cases h with
  | quoted _ hbody _ =>
    exact Pattern.mem_one_mul_iff.2
      ⟨'"', _, rfl, rfl, Language.append_mem_mul hbody ⟨'"', rfl, rfl⟩⟩
  | unclosed => exact absurd rfl token
  | longest _ _ pattern _ => exact pattern
  | stray => exact absurd rfl token

theorem Kind.Lexes.mem_pattern (h : kind.Lexes text) (token : kind ≠ .stray) :
    text.toList ∈ kind.pattern := by
  obtain ⟨c, cs, ht, -, lexed⟩ := Kind.lexes_iff.1 h
  rw [ht]
  exact mem_pattern_of_munch (munch_iff_lexeme.2 lexed) token

theorem mem_pattern_of_mem_scan {p : Nat} {cs : List Char} {t : Token} (h : t ∈ scan p cs)
    (more : t.kind ≠ .finish) (token : t.kind ≠ .stray) : t.text.toList ∈ t.kind.pattern := by
  obtain ⟨_, _, -, -, ⟨finish, -⟩ | ⟨c, ds, ht, -, lexed⟩⟩ := mem_scan h
  · exact absurd finish more
  · rw [ht]
    exact mem_pattern_of_munch (munch_iff_lexeme.2 lexed) token

end Token

namespace Rule

theorem literalOf_verbatim {t : Token}
    (literal : t.kind ∈ [.integer, .float, .trueWord, .falseWord]) (written : t.kind.Lexes t.text)
    (fits : t.kind = .integer → Numeral.Fits t.text.toList) :
    ∃ l, literalOf t = .ok l ∧ l.coerce t.text .string = .ok (.string t.text) := by
  simp only [List.mem_cons, List.not_mem_nil, or_false] at literal
  rcases literal with hk | hk | hk | hk
  · have number : Numeral.int64? t.text.toList ≠ none := fun none =>
      Numeral.int64?_eq_none_iff.1 none (fits hk)
    obtain ⟨i, number⟩ := Option.ne_none_iff_exists'.1 number
    exact ⟨.int i, by simp only [literalOf, hk, number], rfl⟩
  · rw [hk] at written
    obtain ⟨x, number⟩ := Numeral.exists_binary64? (written.mem_pattern (by simp))
    exact ⟨.float x, by simp only [literalOf, hk, number], rfl⟩
  · exact ⟨.bool true, by simp only [literalOf, hk], rfl⟩
  · exact ⟨.bool false, by simp only [literalOf, hk], rfl⟩

theorem literalOf_of_not_fits {t : Token} (integer : t.kind = .integer)
    (large : ¬ Numeral.Fits t.text.toList) : literalOf t = .error ⟨.badLiteral t.text, t.span⟩ := by
  simp only [literalOf, integer, Numeral.int64?_eq_none_iff.2 large]

end Rule

end DocMarks
