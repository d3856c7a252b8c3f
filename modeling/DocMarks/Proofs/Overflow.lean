import Mathlib
import DocMarks.Proofs.Diagnostics
import DocMarks.Proofs.Literal

namespace DocMarks

open Token

namespace Numeral

open Token.Pattern (maybe digits)

variable {d w : List Char} {z : Int}

/-- The text is a sign, which may be missing, and digits; `z` is the number that they are in base
ten. -/
def Denotes (w : List Char) (z : Int) : Prop :=
  ∃ s ∈ maybe Pattern.sign, ∃ d ∈ digits, w = s ++ d ∧
    z = (if s = ['-'] then -1 else 1) * Nat.ofDigits 10 (d.reverse.map digit)

theorem exists_denotes (h : w ∈ Kind.integer.pattern) : ∃ z, Denotes w z := by
  obtain ⟨s, hs, d, hd, rfl⟩ := Language.mem_mul.1 h
  exact ⟨_, s, hs, d, hd, rfl, rfl⟩

theorem value_append_singleton (d : List Char) (c : Char) :
    value (d ++ [c]) = 10 * value d + digit c := by
  rw [value, List.foldl_append]
  rfl

theorem value_eq_ofDigits (d : List Char) : value d = Nat.ofDigits 10 (d.reverse.map digit) := by
  induction d using List.reverseRecOn with
  | nil => rfl
  | append_singleton d c ih =>
    rw [value_append_singleton, ih, List.reverse_concat, List.map_cons, Nat.ofDigits_cons,
      Nat.add_comm]

theorem integer?_of_denotes (h : Denotes w z) : integer? w = some z := by
  obtain ⟨s, hs, d, hd, rfl, rfl⟩ := h
  rw [integer?_append hs hd, value_eq_ofDigits, Nat.coe_ofDigits]
  split <;> simp

theorem int64?_of_denotes (h : Denotes w z) : int64? w = fit? z := by
  rw [int64?, integer?_of_denotes h, Option.bind_some]

end Numeral

namespace Rule

variable {c : Cursor} {t : Token} {z : Int}

theorem literalOf_of_denotes (integer : t.kind = .integer) (h : Numeral.Denotes t.text.toList z) :
    literalOf t =
      match Numeral.fit? z with
      | some i => .ok (.int i)
      | none => .error ⟨.badLiteral t.text, t.span⟩ := by
  have number := Numeral.int64?_of_denotes h
  cases fits : Numeral.fit? z with
  | none => simp only [literalOf, integer, number, fits]
  | some i => simp only [literalOf, integer, number, fits]

theorem literalOf_of_float (float : t.kind = .float) (h : t.text.toList ∈ Kind.float.pattern) :
    ∃ x, Numeral.binary64? t.text.toList = some x ∧ literalOf t = .ok (.float x) := by
  obtain ⟨x, number⟩ := Numeral.exists_binary64? h
  exact ⟨x, number, by simp only [literalOf, float, number]⟩

theorem items_eq_error {item : Rule Value} {steps : Nat} {table : Table} {a : Allowance}
    {l : Fault.Located} (key : c.current.kind.isLiteral) (next : c.next.kind = .colon)
    (fault : literalOf c.current = .error l) : items item (steps + 1) table a c = .error l := by
  rw [items_key key next]
  exact bind_eq_error_iff.2 (.inl (literal_eq_error fault))

theorem overflow_of_badLiteral {p : Nat} {cs : List Char} {text : String} {span : Span}
    (mem : t ∈ scan p cs) (h : literalOf t = .error ⟨.badLiteral text, span⟩) :
    t.kind = .integer ∧
      ∃ z, Numeral.Denotes t.text.toList z ∧ ¬ (-2 ^ 63 ≤ z ∧ z < 2 ^ 63) := by
  have pattern := mem_pattern_of_mem_scan mem
  by_cases integer : t.kind = .integer
  · rw [integer] at pattern
    obtain ⟨z, denotes⟩ := Numeral.exists_denotes (pattern (by simp) (by simp))
    refine ⟨integer, z, denotes, ?_⟩
    rw [literalOf_of_denotes integer denotes] at h
    cases large : Numeral.fit? z with
    | some i => simp [large] at h
    | none => exact Numeral.fit?_eq_none_iff.1 large
  · by_cases float : t.kind = .float
    · rw [float] at pattern
      obtain ⟨x, -, number⟩ := literalOf_of_float float (pattern (by simp) (by simp))
      cases number.symm.trans h
    · rw [literalOf.eq_def] at h
      split at h
      case h_3 hk => exact absurd hk integer
      case h_4 hk => exact absurd hk float
      all_goals cases h

end Rule

/-- An integer is read as exactly the number that it denotes, or it is a bad literal, as a value and
as a key of a table. Every float is read, so a bad literal of a comment is an integer out of
range. -/
theorem Dialect.badLiteral_only_overflow :
    (∀ (c : Cursor) (z : Int), c.current.kind = .integer →
      Numeral.Denotes c.current.text.toList z →
      (-2 ^ 63 ≤ z ∧ z < 2 ^ 63 →
        ∃ i : Int64, i.toInt = z ∧ Rule.literal c = .ok (.int i, c.step)) ∧
      (¬ (-2 ^ 63 ≤ z ∧ z < 2 ^ 63) →
        let bad : Fault.Located := ⟨.badLiteral c.current.text, c.current.span⟩
        Rule.literal c = .error bad ∧ (∀ kind owner a, Rule.scalar kind owner a c = .error bad) ∧
          ∀ item steps table a, c.next.kind = .colon →
            Rule.items item (steps + 1) table a c = .error bad)) ∧
    (∀ c : Cursor, c.current.kind = .float → c.current.text.toList ∈ Kind.float.pattern →
      ∃ x, Numeral.binary64? c.current.text.toList = some x ∧
        Rule.literal c = .ok (.float x, c.step)) ∧
    ∀ (d : Dialect) (body body' text : String) (span : Span),
      d.read body = .error (.fault ⟨.badLiteral text, span⟩ body') →
      ∃ r t z, Region.ofBody? body = some r ∧ t ∈ Token.scan r.start r.text ∧
        t.kind = .integer ∧ t.text = text ∧ t.span = span ∧ Numeral.Denotes text.toList z ∧
        ¬ (-2 ^ 63 ≤ z ∧ z < 2 ^ 63) := by
  refine ⟨?_, ?_, ?_⟩
  · intro c z integer denotes
    have read := Rule.literalOf_of_denotes integer denotes
    constructor
    · intro range
      cases fits : Numeral.fit? z with
      | none => exact absurd range (Numeral.fit?_eq_none_iff.1 fits)
      | some i =>
        rw [fits] at read
        exact ⟨i, Numeral.fit?_eq_some_iff.1 fits, Rule.literal_eq_ok_iff.2 ⟨read, rfl⟩⟩
    · intro range
      rw [Numeral.fit?_eq_none_iff.2 range] at read
      refine ⟨Rule.literal_eq_error read, fun _ _ _ => Rule.scalar_eq_error read, ?_⟩
      intro item steps table a next
      exact Rule.items_eq_error (by simp [integer, Kind.isLiteral]) next read
  · intro c float pattern
    obtain ⟨x, number, read⟩ := Rule.literalOf_of_float float pattern
    exact ⟨x, number, Rule.literal_eq_ok_iff.2 ⟨read, rfl⟩⟩
  · intro d body body' text span h
    obtain ⟨l, r, fault, region, stopped⟩ := markers_eq_error (read_eq_error_iff.1 h) (by simp)
    cases fault
    obtain ⟨t, ht, place, rfl, bad⟩ := Rule.markers_blames _ (Cursor.ends_ofTokens _) stopped
    rw [Cursor.upcoming_ofTokens, Token.finished_scan] at ht
    obtain ⟨integer, z, denotes, range⟩ := Rule.overflow_of_badLiteral ht bad
    exact ⟨r, t, z, region, ht, integer, rfl, place.symm, denotes, range⟩

theorem Dialect.badLiteral_only_overflow_least :
    (∃ i : Int64, i.toInt = -2 ^ 63 ∧
      (Rule.literal (.ofTokens (ofText "-09223372036854775808" 0))).map Prod.fst = .ok (.int i)) ∧
    (∃ x, (Rule.literal (.ofTokens (ofText "+.5" 0))).map Prod.fst = .ok (.float x)) ∧
    ∃ (d : Dialect) (r : Region) (t : Token) (z : Int),
      d.read "@t(k = \x7b-9223372036854775809: 1\x7d)" = .error (.fault
        ⟨.badLiteral "-9223372036854775809", ⟨8, 28⟩⟩ "@t(k = \x7b-9223372036854775809: 1\x7d)") ∧
      Region.ofBody? "@t(k = \x7b-9223372036854775809: 1\x7d)" = some r ∧
      t ∈ Token.scan r.start r.text ∧ t.kind = .integer ∧ t.span = ⟨8, 28⟩ ∧
      Numeral.Denotes "-9223372036854775809".toList z ∧ ¬ (-2 ^ 63 ≤ z ∧ z < 2 ^ 63) := by
  obtain ⟨integers, floats, comments⟩ := badLiteral_only_overflow
  have least : Numeral.Denotes "-09223372036854775808".toList (-2 ^ 63) :=
    ⟨['-'], Pattern.mem_maybe_iff.2 (.inr ⟨'-', rfl, rfl⟩), "09223372036854775808".toList,
      Pattern.mem_digits_iff.2 ⟨by simp, List.all_eq_true.1 rfl⟩, rfl, by decide⟩
  obtain ⟨i, value, integer⟩ :=
    (integers (.ofTokens (ofText "-09223372036854775808" 0)) _ rfl least).1 (by decide)
  have half : Kind.float.Lexes "+.5" := by decide
  obtain ⟨x, -, float⟩ := floats (.ofTokens (ofText "+.5" 0)) rfl (half.mem_pattern (by decide))
  have stopped : Dialect.read
      ⟨⟨[⟨"t", [("k", .tableOf (.scalar .integer))]⟩], by simp⟩, ⟨2⟩⟩
      "@t(k = \x7b-9223372036854775809: 1\x7d)" = .error (.fault
        ⟨.badLiteral "-9223372036854775809", ⟨8, 28⟩⟩ "@t(k = \x7b-9223372036854775809: 1\x7d)") := by
    cbv
  obtain ⟨r, t, z, region, mem, kind, -, span, denotes, range⟩ := comments _ _ _ _ _ stopped
  exact ⟨⟨i, value, by rw [integer]; rfl⟩, ⟨x, by rw [float]; rfl⟩, _, r, t, z, stopped, region,
    mem, kind, span, denotes, range⟩

end DocMarks
