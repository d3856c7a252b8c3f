import DocMarks.Proofs.Token.Lexeme
import DocMarks.Text.Quoted

namespace DocMarks.Text

theorem splitOn_eq_cons (separator : Char) (cs : List Char) :
    ∃ first rest, splitOn separator cs = first :: rest ∧
      first ++ rest.flatMap (separator :: ·) = cs := by
  induction cs with
  | nil => exact ⟨[], [], rfl, rfl⟩
  | cons c cs ih =>
    obtain ⟨first, rest, split, joined⟩ := ih
    rw [splitOn]
    split
    case isTrue h => exact ⟨[], _, rfl, by simp [split, h, joined]⟩
    case isFalse => exact ⟨c :: first, rest, by rw [split], by simp [joined]⟩

namespace Quoted

/-- No line after the first starts, after its indent, with a star. -/
def Plain (cs : List Char) : Prop :=
  ∀ line ∈ (splitOn '\n' cs).tail, (line.dropWhile isIndent).head? ≠ some '*'

instance (cs : List Char) : Decidable (Plain cs) :=
  inferInstanceAs (Decidable (∀ line ∈ (splitOn '\n' cs).tail, _))

theorem double_cons_of_ne {c : Char} (cs : List Char) (h : c ≠ '"') :
    double (c :: cs) = c :: double cs := by
  rw [double, if_neg h]

theorem splitOn_double (cs : List Char) :
    splitOn '\n' (double cs) = (splitOn '\n' cs).map double := by
  induction cs with
  | nil => rfl
  | cons c cs ih =>
    obtain ⟨first, rest, split, -⟩ := splitOn_eq_cons '\n' cs
    rw [split] at ih
    by_cases quote : c = '"'
    · simp [quote, double, splitOn, ih, split]
    · by_cases newline : c = '\n'
      · simp [newline, double, splitOn, ih, split]
      · simp [quote, newline, double, splitOn, ih, split]

theorem double_append (cs ds : List Char) : double (cs ++ ds) = double cs ++ double ds := by
  induction cs with
  | nil => rfl
  | cons c cs ih =>
    rw [List.cons_append, double, double, ih]
    split <;> rfl

theorem dropWhile_double {p : Char → Bool} (quote : p '"' = false) (cs : List Char) :
    (double cs).dropWhile p = double (cs.dropWhile p) := by
  induction cs with
  | nil => rfl
  | cons c cs ih =>
    by_cases h : c = '"'
    · simp [h, double, quote]
    · rw [double_cons_of_ne cs h, List.dropWhile_cons, List.dropWhile_cons]
      split
      · exact ih
      · rw [double_cons_of_ne cs h]

theorem head?_double (cs : List Char) : (double cs).head? = cs.head? := by
  cases cs with
  | nil => rfl
  | cons c cs =>
    rw [double]
    split
    case isTrue quote => rw [quote]; rfl
    case isFalse => rfl

theorem dropMargin_of_head? {line : List Char} (h : (line.dropWhile isIndent).head? ≠ some '*') :
    dropMargin line = line := by
  rw [dropMargin]
  split
  case h_1 rest eq => simp [eq] at h
  case h_2 => rfl

theorem dropMargin_double (line : List Char) :
    dropMargin (double line) = double (dropMargin line) := by
  by_cases star : (line.dropWhile isIndent).head? = some '*'
  · obtain ⟨rest, h⟩ := List.head?_eq_some_iff.1 star
    have doubled : (double line).dropWhile isIndent = '*' :: double rest := by
      rw [dropWhile_double rfl, h, double_cons_of_ne rest (by decide)]
    rw [dropMargin, dropMargin, h, doubled]
    simp only [dropWhile_double (p := (· == '*')) rfl]
    cases rest.dropWhile (· == '*') with
    | nil => rfl
    | cons c after =>
      by_cases space : c = ' '
      · rw [space, double_cons_of_ne after (by decide)]
        rfl
      · by_cases quote : c = '"'
        · simp [quote, double]
        · simp [double_cons_of_ne after quote, space]
  · rw [dropMargin_of_head? star, dropMargin_of_head?]
    rwa [dropWhile_double rfl, head?_double]

theorem double_flatMap (rest : List (List Char)) :
    double (rest.flatMap ('\n' :: ·)) = (rest.map double).flatMap ('\n' :: ·) := by
  induction rest with
  | nil => rfl
  | cons line rest ih =>
    rw [List.flatMap_cons, double_append, double_cons_of_ne line (by decide), ih, List.map_cons,
      List.flatMap_cons]

theorem unwrap_cons (first : List Char) (rest : List (List Char)) :
    unwrap (first :: rest) = first ++ (rest.map dropMargin).flatMap ('\n' :: ·) := by
  rw [unwrap, List.flatMap_map]

/-- A quotation stands for its text without the margins that lines of it may have. -/
theorem decode_encode_eq_unwrap (cs : List Char) :
    decode (encode cs) = unwrap (splitOn '\n' cs) := by
  obtain ⟨first, rest, split, -⟩ := splitOn_eq_cons '\n' cs
  have margins : (rest.map double).map dropMargin = (rest.map dropMargin).map double := by
    simp [dropMargin_double]
  rw [decode, encode, List.tail_cons, List.dropLast_concat, splitOn_double, split, List.map_cons,
    unwrap_cons, unwrap_cons, margins, ← double_flatMap, ← double_append, undouble_double]

theorem decode_encode {cs : List Char} (plain : Plain cs) : decode (encode cs) = cs := by
  obtain ⟨first, rest, split, joined⟩ := splitOn_eq_cons '\n' cs
  rw [Plain, split, List.tail_cons] at plain
  have margins : rest.map dropMargin = rest.map id :=
    List.map_congr_left fun line mem => dropMargin_of_head? (plain line mem)
  rw [decode_encode_eq_unwrap, split, unwrap_cons, margins, List.map_id, joined]

end Quoted
end DocMarks.Text

namespace DocMarks.Token

open Text.Quoted

theorem closing?_cons_of_ne {c : Char} (cs : List Char) (h : c ≠ '"') :
    closing? (c :: cs) = (closing? cs).map (c :: ·) := by
  rw [closing?]
  · exact fun _ hc => absurd hc h
  · exact h

theorem closing?_double (cs : List Char) {rest : List Char} (closed : rest.head? ≠ some '"') :
    closing? (double cs ++ '"' :: rest) = some (double cs ++ ['"']) := by
  induction cs with
  | nil =>
    rw [double, List.nil_append, closing?]
    · rfl
    · rintro cs rfl
      exact closed rfl
  | cons c cs ih =>
    by_cases quote : c = '"'
    · simp [quote, double, closing?, ih]
    · rw [double_cons_of_ne cs quote, List.cons_append, closing?_cons_of_ne _ quote, ih]
      rfl

end DocMarks.Token
