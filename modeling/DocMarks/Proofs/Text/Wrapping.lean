import DocMarks.Literal
import DocMarks.Proofs.Text.Quoted
import DocMarks.Value.Render

namespace DocMarks

namespace Text

variable {separator : Char} {cs : List Char}

theorem not_mem_of_mem_splitOn {piece : List Char} (h : piece ∈ splitOn separator cs) :
    separator ∉ piece := by
  induction cs generalizing piece with
  | nil =>
    cases List.mem_singleton.1 h
    exact List.not_mem_nil
  | cons c cs ih =>
    obtain ⟨first, rest, split, -⟩ := splitOn_eq_cons separator cs
    rw [splitOn] at h
    split at h
    case isTrue =>
      cases h with
      | head => exact List.not_mem_nil
      | tail _ h => exact ih h
    case isFalse other =>
      simp only [split] at h ih
      cases h with
      | head => exact fun h => (List.mem_cons.1 h).elim (Ne.symm other) (ih (.head _))
      | tail _ h => exact ih (.tail _ h)

theorem splitOn_of_not_mem (h : separator ∉ cs) : splitOn separator cs = [cs] := by
  induction cs with
  | nil => rfl
  | cons c cs ih =>
    rw [List.mem_cons, not_or] at h
    rw [splitOn, if_neg (Ne.symm h.1), ih h.2]

theorem splitOn_append {first : List Char} (h : separator ∉ first) (rest : List Char) :
    splitOn separator (first ++ separator :: rest) = first :: splitOn separator rest := by
  induction first with
  | nil => rw [List.nil_append, splitOn, if_pos rfl]
  | cons c first ih =>
    rw [List.mem_cons, not_or] at h
    rw [List.cons_append, splitOn, if_neg (Ne.symm h.1), ih h.2]

theorem splitOn_flatMap {first : List Char} {rest : List (List Char)} (h : separator ∉ first)
    (hs : ∀ line ∈ rest, separator ∉ line) :
    splitOn separator (first ++ rest.flatMap (separator :: ·)) = first :: rest := by
  induction rest generalizing first with
  | nil => rw [List.flatMap_nil, List.append_nil, splitOn_of_not_mem h]
  | cons line rest ih =>
    rw [List.forall_mem_cons] at hs
    rw [List.flatMap_cons, List.cons_append, splitOn_append h, ih hs.1 hs.2]

namespace Quoted

theorem dropMargin_isSuffix {line rest : List Char} (h : line.dropWhile isIndent = '*' :: rest) :
    dropMargin line <:+ rest := by
  rw [dropMargin, h]
  simp only
  split
  case h_1 after eq => exact (List.suffix_cons ' ' after).trans (eq ▸ List.dropWhile_suffix _)
  case h_2 => exact List.dropWhile_suffix _

theorem dropMargin_eq_self_iff {line : List Char} :
    dropMargin line = line ↔ (line.dropWhile isIndent).head? ≠ some '*' := by
  constructor
  · intro same star
    obtain ⟨rest, h⟩ := List.head?_eq_some_iff.1 star
    have shorter := (dropMargin_isSuffix h).length_le
    have longer := (List.dropWhile_suffix isIndent (l := line)).length_le
    rw [same] at shorter
    rw [h, List.length_cons] at longer
    omega
  · exact dropMargin_of_head?

theorem subset_dropMargin (line : List Char) : dropMargin line ⊆ line := by
  by_cases star : (line.dropWhile isIndent).head? = some '*'
  · obtain ⟨rest, h⟩ := List.head?_eq_some_iff.1 star
    have inside : '*' :: rest <:+ line := h ▸ List.dropWhile_suffix isIndent
    exact ((dropMargin_isSuffix h).trans ((List.suffix_cons '*' rest).trans inside)).subset
  · rw [dropMargin_of_head? star]
    exact List.Subset.refl line

theorem decode_encode_eq_self_iff (cs : List Char) : decode (encode cs) = cs ↔ Plain cs := by
  constructor
  · intro same
    obtain ⟨first, rest, split, -⟩ := splitOn_eq_cons '\n' cs
    have pieces : ∀ line ∈ first :: rest, '\n' ∉ line := by
      intro line h
      exact not_mem_of_mem_splitOn (split ▸ h)
    rw [List.forall_mem_cons] at pieces
    have lines : first :: rest.map dropMargin = first :: rest := by
      rw [decode_encode_eq_unwrap, split, unwrap_cons] at same
      rw [← split, ← same, splitOn_flatMap pieces.1]
      intro line h
      obtain ⟨line, mem, rfl⟩ := List.mem_map.1 h
      exact fun newline => pieces.2 line mem (subset_dropMargin line newline)
    have kept := List.map_inj_left.1 ((List.cons.inj lines).2.trans rest.map_id.symm)
    rw [Plain, split, List.tail_cons]
    exact fun line h => dropMargin_eq_self_iff.1 (kept line h)
  · exact decode_encode

def IsMargin (margin : List Char) : Prop :=
  ∃ indent stars, margin = indent ++ '*' :: (stars ++ [' ']) ∧ (∀ c ∈ indent, isIndent c) ∧
    ∀ c ∈ stars, c = '*'

def wrap (margins : List (List Char)) : List (List Char) → List Char
  | [] => encode []
  | first :: rest =>
    let continued := List.zipWith (fun margin line => margin ++ double line) margins rest
    '"' :: (double first ++ continued.flatMap ('\n' :: ·) ++ ['"'])

theorem IsMargin.dropMargin_append {margin : List Char} (h : IsMargin margin) (line : List Char) :
    dropMargin (margin ++ line) = line := by
  obtain ⟨indent, stars, rfl, blank, star⟩ := h
  have starry : ∀ c ∈ stars, (c == '*') = true := fun c hc => beq_iff_eq.2 (star c hc)
  have indented : (indent ++ '*' :: (stars ++ [' ']) ++ line).dropWhile isIndent =
      '*' :: (stars ++ ' ' :: line) := by
    rw [List.append_assoc, List.dropWhile_append_of_pos blank]
    simp [isIndent]
  rw [dropMargin, indented]
  simp only
  rw [List.dropWhile_append_of_pos starry]
  rfl

theorem IsMargin.isIndent_or_star {margin : List Char} (h : IsMargin margin) :
    ∀ c ∈ margin, c = ' ' ∨ c = '\t' ∨ c = '*' := by
  obtain ⟨indent, stars, rfl, blank, star⟩ := h
  intro c hc
  rw [List.mem_append, List.mem_cons, List.mem_append, List.mem_singleton] at hc
  rcases hc with hc | rfl | hc | rfl
  · have indented := blank c hc
    simp only [isIndent, Bool.or_eq_true, beq_iff_eq] at indented
    rcases indented with rfl | rfl
    · exact .inl rfl
    · exact .inr (.inl rfl)
  · exact .inr (.inr rfl)
  · exact .inr (.inr (star c hc))
  · exact .inl rfl

theorem IsMargin.not_mem {margin : List Char} (h : IsMargin margin) :
    '\n' ∉ margin ∧ '"' ∉ margin := by
  constructor
  · intro newline
    rcases h.isIndent_or_star _ newline with h | h | h <;> cases h
  · intro quote
    rcases h.isIndent_or_star _ quote with h | h | h <;> cases h

theorem double_of_not_mem {cs : List Char} (h : '"' ∉ cs) : double cs = cs := by
  induction cs with
  | nil => rfl
  | cons c cs ih =>
    rw [List.mem_cons, not_or] at h
    rw [double_cons_of_ne cs (Ne.symm h.1), ih h.2]

section

variable {margins : List (List Char)} (h : ∀ m ∈ margins, IsMargin m)
include h

theorem map_double_margins (rest : List (List Char)) :
    (List.zipWith (· ++ ·) margins rest).map double =
      List.zipWith (fun margin line => margin ++ double line) margins rest := by
  induction margins generalizing rest with
  | nil => rfl
  | cons margin margins ih =>
    rw [List.forall_mem_cons] at h
    cases rest with
    | nil => rfl
    | cons line rest =>
      rw [List.zipWith_cons_cons, List.map_cons, ih h.2, double_append,
        double_of_not_mem h.1.not_mem.2, List.zipWith_cons_cons]

theorem map_dropMargin_margins {rest : List (List Char)} (same : rest.length = margins.length) :
    (List.zipWith (· ++ ·) margins rest).map dropMargin = rest := by
  induction margins generalizing rest with
  | nil => exact (List.eq_nil_of_length_eq_zero same).symm
  | cons margin margins ih =>
    rw [List.forall_mem_cons] at h
    cases rest with
    | nil => rfl
    | cons line rest =>
      rw [List.zipWith_cons_cons, List.map_cons, ih h.2 (Nat.succ.inj same),
        h.1.dropMargin_append]

theorem wrap_eq_encode (first : List Char) (rest : List (List Char)) :
    wrap margins (first :: rest) =
      encode (first ++ (List.zipWith (· ++ ·) margins rest).flatMap ('\n' :: ·)) := by
  rw [wrap, encode, double_append, double_flatMap, map_double_margins h]

theorem not_mem_margins {rest : List (List Char)} (lines : ∀ line ∈ rest, '\n' ∉ line) :
    ∀ line ∈ List.zipWith (· ++ ·) margins rest, '\n' ∉ line := by
  induction margins generalizing rest with
  | nil => exact fun _ h => nomatch h
  | cons margin margins ih =>
    rw [List.forall_mem_cons] at h
    cases rest with
    | nil => exact fun _ h => nomatch h
    | cons line rest =>
      rw [List.forall_mem_cons] at lines
      refine List.forall_mem_cons.2 ⟨?_, ih h.2 lines.2⟩
      rw [List.mem_append, not_or]
      exact ⟨h.1.not_mem.1, lines.1⟩

theorem decode_wrap {cs : List Char} (same : (splitOn '\n' cs).length = margins.length + 1) :
    decode (wrap margins (splitOn '\n' cs)) = cs := by
  obtain ⟨first, rest, split, joined⟩ := splitOn_eq_cons '\n' cs
  have pieces : ∀ line ∈ first :: rest, '\n' ∉ line := by
    intro line h
    exact not_mem_of_mem_splitOn (split ▸ h)
  rw [List.forall_mem_cons] at pieces
  rw [split] at same ⊢
  rw [wrap_eq_encode h, decode_encode_eq_unwrap,
    splitOn_flatMap pieces.1 (not_mem_margins h pieces.2), unwrap_cons,
    map_dropMargin_margins h (Nat.succ.inj same), joined]

end

end Quoted
end Text

namespace Token

/-- The text is the first token, of the kind, in front of `rest`, which is cut on its own. -/
def Kind.Leads (kind : Kind) (text : String) (rest : List Char) : Prop :=
  ∀ p, scan p (text.toList ++ rest) =
    ⟨kind, text, ⟨p, p + Text.width text.toList⟩⟩ :: scan (p + Text.width text.toList) rest

open Text.Quoted

theorem leads_encode (cs : List Char) {rest : List Char} (single : rest.head? ≠ some '"') :
    Kind.string.Leads (String.ofList (encode cs)) rest := by
  intro p
  have lexed : lexeme '"' (double cs ++ ['"'] ++ rest) = (.string, encode cs) := by
    apply lexeme_eq_string_iff.2
    refine ⟨rfl, ?_⟩
    rw [List.append_assoc]
    exact closing?_double cs single
  rw [String.toList_ofList]
  exact scan_lexeme p (by decide) lexed

end Token

open Text.Quoted

/-- A text that is quoted over several lines is one token and is read back. -/
theorem unquote_wrapped (s : String) :
    (∀ (margins : List (List Char)) (t : String), (∀ m ∈ margins, IsMargin m) →
      (Text.splitOn '\n' s.toList).length = margins.length + 1 →
      t.toList = wrap margins (Text.splitOn '\n' s.toList) →
      (∀ rest, rest.head? ≠ some '"' → Token.Kind.string.Leads t rest) ∧ unquote t = s) ∧
    (∀ rest, rest.head? ≠ some '"' → Token.Kind.string.Leads (Value.string s).render rest) ∧
    (unquote (Value.string s).render = s ↔ Plain s.toList) := by
  refine ⟨fun margins t margin same text => ⟨fun rest single => ?_, ?_⟩,
    fun rest single => Token.leads_encode s.toList single, ?_⟩
  · obtain ⟨first, lines, split, -⟩ := Text.splitOn_eq_cons '\n' s.toList
    rw [split, wrap_eq_encode margin] at text
    rw [← String.ofList_toList (s := t), text]
    exact Token.leads_encode _ single
  · rw [unquote, text, decode_wrap margin same, String.ofList_toList]
  · rw [← decode_encode_eq_self_iff, unquote, Value.render, Value.quote, ← String.toList_inj,
      String.toList_ofList, String.toList_ofList]

theorem unquote_wrapped_starred :
    Token.Kind.string.Leads "\"a\"\"\n\t**  *b\"" [] ∧
      unquote "\"a\"\"\n\t**  *b\"" = "a\"\n *b" ∧
      (Value.string "a\"\n *b").render = "\"a\"\"\n *b\"" ∧
      unquote (Value.string "a\"\n *b").render ≠ "a\"\n *b" := by
  obtain ⟨wrapped, -, plain⟩ := unquote_wrapped "a\"\n *b"
  have margin : IsMargin "\t** ".toList :=
    ⟨['\t'], ['*'], rfl, List.forall_mem_singleton.2 rfl, List.forall_mem_singleton.2 rfl⟩
  obtain ⟨leads, read⟩ := wrapped ["\t** ".toList] "\"a\"\"\n\t**  *b\""
    (List.forall_mem_singleton.2 margin) (by decide) (by decide)
  exact ⟨leads [] (by decide), read, by decide, mt plain.1 (by decide)⟩

end DocMarks
