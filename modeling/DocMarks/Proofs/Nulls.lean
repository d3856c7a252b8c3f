import Mathlib
import DocMarks.Proofs.Decimal
import DocMarks.Proofs.Json.Compact
import DocMarks.Proofs.Scalars

namespace DocMarks

theorem Json.compact_float_eq_null_iff {x : Binary64} :
    (Json.float x).compact = "null" ↔ x.toRat? = none := by
  rw [compact_eq_null_iff]
  cases x with
  | finite negative units => simp [Binary64.toRat?]
  | infinite negative => simp [Binary64.toRat?]
  | nan => simp [Binary64.toRat?]

theorem Literal.coerce_float_eq_ok {l : Literal} {text : String} {v : Value}
    (h : l.coerce text .float = .ok v) : ∃ x, l = .float x ∧ v = .float x := by
  cases l with
  | float x =>
    cases h
    exact ⟨x, rfl, rfl⟩
  | _ => cases h

theorem Literal.compact_ne_null_of_coerce {l : Literal} {text : String} {kind : ScalarKind}
    {v : Value} (h : l.coerce text kind = .ok v) (declared : kind ≠ .mixed) (other : kind ≠ .float) :
    v.toJson.compact ≠ "null" := by
  intro null
  have json := Json.compact_eq_null_iff.1 null
  cases conforms_of_coerce h with
  | float => exact absurd rfl other
  | mixed => exact absurd rfl declared
  | _ => simp [Value.toJson] at json

theorem Rule.literalOf_eq_float {t : Token} {x : Binary64} (h : literalOf t = .ok (.float x)) :
    t.kind = .float ∧ Numeral.binary64? t.text.toList = some x := by
  rw [literalOf.eq_def] at h
  split at h
  case h_4 float =>
    refine ⟨float, ?_⟩
    split at h
    case h_1 number =>
      cases h
      exact number
    case h_2 => cases h
  case h_3 =>
    split at h
    case h_1 => cases h
    case h_2 => cases h
  all_goals cases h

/-- Where a kind other than `mixed` is declared, at every depth, the JSON of a comment has a null only
for a float, and exactly if the number that the float denotes is rounded beyond the format. -/
theorem Dialect.read_null_iff_beyond (d : Dialect) (body : String) (f : Findings)
    (read : d.read body = .ok f) (kind : ScalarKind) (leaf : Json)
    (place : d.vocabulary.Places kind leaf f.toJson) (declared : kind ≠ .mixed) :
    (kind ≠ .float → leaf.compact ≠ "null") ∧
    (kind = .float → ∃ r t x q, Region.ofBody? body = some r ∧ t ∈ Token.scan r.start r.text ∧
      t.kind = .float ∧ Numeral.binary64? t.text.toList = some x ∧ leaf = .float x ∧
      Numeral.DenotesDecimal t.text.toList q ∧
      (leaf.compact = "null" ↔ 2 ^ 1024 - 2 ^ 970 ≤ |q|)) := by
  obtain ⟨r, t, l, v, region, ht, literal, value, rfl⟩ := exists_of_places read place
  constructor
  · intro other
    exact Literal.compact_ne_null_of_coerce value declared other
  · rintro rfl
    obtain ⟨x, rfl, rfl⟩ := Literal.coerce_float_eq_ok value
    obtain ⟨float, number⟩ := Rule.literalOf_eq_float literal
    have pattern := Token.mem_pattern_of_mem_scan ht (by simp [float]) (by simp [float])
    rw [float] at pattern
    obtain ⟨q, denotes⟩ := Numeral.exists_denotesDecimal pattern
    obtain ⟨y, number', beyond⟩ := denotes.exists_binary64?
    cases number.symm.trans number'
    exact ⟨r, t, x, q, region, ht, float, number, rfl, denotes,
      Json.compact_float_eq_null_iff.trans beyond⟩

theorem Dialect.read_null_iff_beyond_nested :
    let body := "@t(s = 1e999, k = \x7ba: (n = \x7b-1e310\x7d)\x7d)"
    ∃ (d : Dialect) (f : Findings) (text number : Json), d.read body = .ok f ∧
      d.vocabulary.Places .string text f.toJson ∧ text.compact ≠ "null" ∧
      d.vocabulary.Places .float number f.toJson ∧ number.compact = "null" ∧
      ∃ (r : Region) (t : Token) (q : ℚ), Region.ofBody? body = some r ∧
        t ∈ Token.scan r.start r.text ∧ t.kind = .float ∧ Numeral.DenotesDecimal t.text.toList q ∧
        2 ^ 1024 - 2 ^ 970 ≤ |q| := by
  intro body
  let u : MarkerType := ⟨"u", [("n", .tableOf (.scalar .float))]⟩
  let t : MarkerType := ⟨"t", [("s", .scalar .string), ("k", .tableOf (.marker u))]⟩
  let d : Dialect := ⟨⟨[t], by simp⟩, ⟨4⟩⟩
  let nested : Marker := ⟨u, [("n", .table ⟨[(.int 0, .float (.infinite true))], 1⟩)]⟩
  let m : Marker := ⟨t, [("s", .string "1e999"), ("k", .table ⟨[(.string "a", .marker nested)], 0⟩)]⟩
  have read : d.read body = .ok ⟨[("t", .once m)]⟩ := by cbv
  have text : d.vocabulary.Places .string (.string "1e999") (Findings.toJson ⟨[("t", .once m)]⟩) :=
    .once (.head _) rfl (.field (.head _) rfl .scalar)
  have number : d.vocabulary.Places .float (.float (.infinite true))
      (Findings.toJson ⟨[("t", .once m)]⟩) :=
    .once (.head _) rfl (.field (.tail _ (.head _)) rfl (.member (.head _)
      (.field (.head _) rfl (.item (.head _) .scalar))))
  obtain ⟨written, -⟩ := read_null_iff_beyond d body _ read _ _ text (by decide)
  obtain ⟨-, float⟩ := read_null_iff_beyond d body _ read _ _ number (by decide)
  obtain ⟨r, token, x, q, region, mem, kind, -, -, denotes, null⟩ := float rfl
  exact ⟨d, _, _, _, read, text, written (by decide), number, rfl, r, token, q, region, mem, kind,
    denotes, null.1 rfl⟩

theorem Dialect.read_null_for_float :
    let t : MarkerType := ⟨"t", [("k", .scalar .float)]⟩
    let d : Dialect := ⟨⟨[t], by simp⟩, ⟨1⟩⟩
    ∃ f leaf, d.read "@t(k = 1e999)" = .ok f ∧ d.vocabulary.Places .float leaf f.toJson ∧
      leaf.compact = "null" ∧
      f.toJson.compact = "\x7b\"t\":\x7b\"name\":\"t\",\"attributes\":\x7b\"k\":null\x7d\x7d\x7d" := by
  intro t d
  have read : d.read "@t(k = 1e999)" =
      .ok ⟨[("t", .once ⟨t, [("k", .float (.infinite false))]⟩)]⟩ := by cbv
  refine ⟨_, .float (.infinite false), read, ?_, rfl, by cbv⟩
  exact .once (.head _) rfl (.field (.head _) rfl .scalar)

end DocMarks
