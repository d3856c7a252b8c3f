import DocMarks.Proofs.Token.Scan
import DocMarks.Token.Cursor

namespace DocMarks.Token

variable {c : Char} {cs ds rest : List Char}

def isDelimiter (c : Char) : Bool :=
  c == ',' || c == ' ' || c == ')' || c == '\x7d' || c == ':' || c == '=' || c == '('

def Delimited (rest : List Char) : Prop := ∀ c ∈ rest.head?, isDelimiter c

theorem delimited_nil : Delimited [] := fun _ h => nomatch h

theorem delimited_cons (h : isDelimiter c) : Delimited (c :: rest) := by
  intro d hd
  cases hd
  exact h

theorem Delimited.takeWhile_append {p : Char → Bool} (delimited : Delimited rest)
    (stop : ∀ c, isDelimiter c → p c = false) (h : ∀ c ∈ ds, p c) :
    (ds ++ rest).takeWhile p = ds := by
  rw [List.takeWhile_append_of_pos h]
  cases rest with
  | nil => simp
  | cons c rest => simp [stop c (delimited c rfl)]

theorem eq_of_isDelimiter (h : isDelimiter c) :
    c = ',' ∨ c = ' ' ∨ c = ')' ∨ c = '\x7d' ∨ c = ':' ∨ c = '=' ∨ c = '(' := by
  simpa [isDelimiter, or_assoc] using h

theorem isNameRest_of_isDelimiter (h : isDelimiter c) : isNameRest c = false := by
  rcases eq_of_isDelimiter h with rfl | rfl | rfl | rfl | rfl | rfl | rfl <;> decide

theorem isDigit_of_isDelimiter (h : isDelimiter c) : c.isDigit = false := by
  rcases eq_of_isDelimiter h with rfl | rfl | rfl | rfl | rfl | rfl | rfl <;> decide

theorem wordKind_cases (name : List Char) :
    wordKind name = .trueWord ∨ wordKind name = .falseWord ∨ wordKind name = .nullWord ∨
      wordKind name = .name := by
  rw [wordKind]
  split
  · exact .inl rfl
  · split
    · exact .inr (.inl rfl)
    · split
      · exact .inr (.inr (.inl rfl))
      · exact .inr (.inr (.inr rfl))

theorem number?_kind {kind : Kind} (h : number? cs = some (kind, ds)) :
    kind = .integer ∨ kind = .float := by
  rw [number?] at h
  simp only at h
  split at h
  · split at h
    · cases h
    · cases h
      exact .inr rfl
  · simp only [Option.some.injEq, Prod.mk.injEq] at h
    rw [← h.1]
    split
    · exact .inl rfl
    · exact .inr rfl

theorem punctuation?_cases (c : Char) :
    (punctuation? c).getD .stray ≠ .name ∧ (punctuation? c).getD .stray ≠ .string ∧
      (punctuation? c).getD .stray ≠ .finish := by
  rw [punctuation?.eq_def]
  split <;> simp

theorem isNameStart_ne_quote (h : isNameStart c) : c ≠ '"' := by
  rintro rfl
  exact absurd h (by decide)

theorem lexeme_word (h : isNameStart c) :
    lexeme c cs = (wordKind (c :: cs.takeWhile isNameRest), c :: cs.takeWhile isNameRest) := by
  rw [lexeme, if_neg (isNameStart_ne_quote h), if_pos h]

theorem lexeme_number {number : Kind × List Char} (quote : c ≠ '"') (word : isNameStart c = false)
    (h : number? (c :: cs) = some number) : lexeme c cs = number := by
  rw [lexeme, if_neg quote, if_neg (by simp [word]), h]

theorem lexeme_mark {kind : Kind} (mark : punctuation? c = some kind) (cs : List Char) :
    isGap c = false ∧ lexeme c cs = (kind, [c]) := by
  rw [punctuation?.eq_def] at mark
  split at mark <;> cases mark <;> refine ⟨by decide, ?_⟩ <;>
    simp [lexeme, isNameStart, number?, signOf, digitsOf, fractionOf, punctuation?]

/-- The ways to cut a lexeme off: a quoted text, a quote that is not closed, a word, a number, and
one character. -/
theorem lexeme_cases (c : Char) (cs : List Char) :
    (c = '"' ∧ ∃ ds, closing? cs = some ds ∧ lexeme c cs = (.string, c :: ds)) ∨
    (c = '"' ∧ closing? cs = none ∧ lexeme c cs = (.stray, c :: cs)) ∨
    (isNameStart c ∧
      lexeme c cs = (wordKind (c :: cs.takeWhile isNameRest), c :: cs.takeWhile isNameRest)) ∨
    (∃ kind ds, number? (c :: cs) = some (kind, ds) ∧ lexeme c cs = (kind, ds)) ∨
    lexeme c cs = ((punctuation? c).getD .stray, [c]) := by
  rw [lexeme]
  split
  case isTrue hc =>
    cases h : closing? cs with
    | some ds => exact .inl ⟨hc, ds, rfl, rfl⟩
    | none => exact .inr (.inl ⟨hc, rfl, rfl⟩)
  case isFalse =>
    split
    case isTrue hc => exact .inr (.inr (.inl ⟨hc, rfl⟩))
    case isFalse =>
      cases h : number? (c :: cs) with
      | some number => exact .inr (.inr (.inr (.inl ⟨number.1, number.2, rfl, rfl⟩)))
      | none => exact .inr (.inr (.inr (.inr rfl)))

theorem lexeme_ne_finish (c : Char) (cs : List Char) : (lexeme c cs).1 ≠ .finish := by
  rcases lexeme_cases c cs with ⟨-, _, -, h⟩ | ⟨-, -, h⟩ | ⟨-, h⟩ | ⟨kind, _, hn, h⟩ | h <;> rw [h]
  · simp
  · simp
  · rcases wordKind_cases (c :: cs.takeWhile isNameRest) with h | h | h | h <;> simp [h]
  · rcases number?_kind hn with rfl | rfl <;> simp
  · exact (punctuation?_cases c).2.2

theorem lexeme_eq_name_iff :
    lexeme c cs = (.name, c :: ds) ↔
      isNameStart c ∧ wordKind (c :: ds) = .name ∧ cs.takeWhile isNameRest = ds := by
  constructor
  · intro name
    rcases lexeme_cases c cs with ⟨-, _, -, h⟩ | ⟨-, -, h⟩ | ⟨start, h⟩ | ⟨kind, _, hn, h⟩ | h <;>
      rw [h] at name
    · cases name
    · cases name
    · simp only [Prod.mk.injEq, List.cons.injEq, true_and] at name
      exact ⟨start, name.2 ▸ name.1, name.2⟩
    · cases name
      rcases number?_kind hn with h | h <;> cases h
    · exact absurd (congrArg Prod.fst name) (punctuation?_cases c).1
  · intro ⟨start, word, taken⟩
    rw [lexeme_word start, taken, word]

theorem lexeme_eq_string_iff :
    lexeme c cs = (.string, c :: ds) ↔ c = '"' ∧ closing? cs = some ds := by
  constructor
  · intro string
    rcases lexeme_cases c cs with ⟨hc, _, hd, h⟩ | ⟨-, -, h⟩ | ⟨-, h⟩ | ⟨kind, _, hn, h⟩ | h <;>
      rw [h] at string
    · cases string
      exact ⟨hc, hd⟩
    · cases string
    · have := congrArg Prod.fst string
      rcases wordKind_cases (c :: cs.takeWhile isNameRest) with h | h | h | h <;> simp [h] at this
    · cases string
      rcases number?_kind hn with h | h <;> cases h
    · exact absurd (congrArg Prod.fst string) (punctuation?_cases c).2.1
  · intro ⟨hc, hd⟩
    rw [lexeme, if_pos hc, hd]

theorem closing?_self (h : closing? cs = some ds) : closing? ds = some ds := by
  induction cs using closing?.induct generalizing ds with
  | case1 => cases h
  | case2 cs ih =>
    rw [closing?] at h
    obtain ⟨es, hes, rfl⟩ := Option.map_eq_some_iff.1 h
    rw [closing?, ih hes]
    rfl
  | case3 cs _ =>
    rw [closing?] at h
    · cases h
      rfl
    · assumption
  | case4 c cs _ quote ih =>
    rw [closing?] at h
    · obtain ⟨es, hes, rfl⟩ := Option.map_eq_some_iff.1 h
      rw [closing?, ih hes]
      · rfl
      · exact fun _ hc => absurd hc quote
      · exact quote
    · assumption
    · assumption

theorem lexeme_alone {kind : Kind} (hk : kind = .name ∨ kind = .string)
    (h : lexeme c (ds ++ rest) = (kind, c :: ds)) : lexeme c ds = (kind, c :: ds) := by
  cases hk with
  | inl hk =>
    subst hk
    obtain ⟨start, word, taken⟩ := lexeme_eq_name_iff.1 h
    refine lexeme_eq_name_iff.2 ⟨start, word, ?_⟩
    have all : ∀ c ∈ ds, isNameRest c := List.all_eq_true.1 (taken ▸ List.all_takeWhile)
    simpa using delimited_nil.takeWhile_append (fun _ => isNameRest_of_isDelimiter) all
  | inr hk =>
    subst hk
    obtain ⟨hc, hd⟩ := lexeme_eq_string_iff.1 h
    exact lexeme_eq_string_iff.2 ⟨hc, closing?_self hd⟩

theorem mem_scan {p : Nat} {t : Token} (h : t ∈ scan p cs) :
    ∃ before after, cs = before ++ t.text.toList ++ after ∧
      t.span = ⟨p + Text.width before, p + Text.width before + Text.width t.text.toList⟩ ∧
      ((t.kind = .finish ∧ t.text = "" ∧ after = []) ∨
        ∃ c ds, t.text.toList = c :: ds ∧ isGap c = false ∧
          lexeme c (ds ++ after) = (t.kind, c :: ds)) := by
  revert t
  induction p, cs using scan_induction with
  | nil p =>
    intro t h
    cases List.mem_singleton.1 h
    exact ⟨[], [], rfl, rfl, .inl ⟨rfl, rfl, rfl⟩⟩
  | gap p c cs ts _ ih =>
    intro t h
    obtain ⟨before, after, rfl, span, token⟩ := ih h
    refine ⟨c :: before, after, rfl, ?_, token⟩
    simp [span, Nat.add_assoc]
  | token p c ds rest kind ts gap lexed ih =>
    intro t h
    cases h with
    | head =>
      refine ⟨[], rest, by simp, by simp, .inr ⟨c, ds, by simp, gap, ?_⟩⟩
      simpa using lexed
    | tail _ h =>
      obtain ⟨before, after, rfl, span, token⟩ := ih h
      refine ⟨c :: ds ++ before, after, by simp, ?_, token⟩
      simp [span, Nat.add_assoc]

theorem stop_le_of_mem_scan {p : Nat} {t : Token} (h : t ∈ scan p cs) :
    t.span.stop ≤ p + Text.width cs := by
  obtain ⟨before, after, rfl, span, -⟩ := mem_scan h
  rw [span, Text.width_append, Text.width_append]
  simp only
  omega

theorem getLast?_scan (p : Nat) (cs : List Char) :
    (scan p cs).getLast? = some (finishAt (p + Text.width cs)) := by
  induction p, cs using scan_induction with
  | nil p => rfl
  | gap p c cs ts _ ih => rw [ih, Text.width_cons, Nat.add_assoc]
  | token p c ds rest kind ts _ _ ih =>
    rw [List.getLast?_cons, ih, ← List.cons_append, Text.width_append, Nat.add_assoc]
    rfl

theorem finished_scan (p : Nat) (cs : List Char) : Cursor.finished (scan p cs) = scan p cs := by
  rw [Cursor.finished, getLast?_scan]
  rfl

def Kind.Lexes (kind : Kind) (text : String) : Prop :=
  ofText text 0 =
    [⟨kind, text, ⟨0, Text.width text.toList⟩⟩, finishAt (Text.width text.toList)]

instance (kind : Kind) (text : String) : Decidable (kind.Lexes text) :=
  inferInstanceAs (Decidable (_ = _))

theorem Kind.lexes_iff {kind : Kind} {text : String} :
    kind.Lexes text ↔
      ∃ c cs, text.toList = c :: cs ∧ isGap c = false ∧ lexeme c cs = (kind, c :: cs) := by
  constructor
  · intro h
    rw [Kind.Lexes, ofText] at h
    cases ht : text.toList with
    | nil => simp [ht, scan_nil] at h
    | cons c cs =>
      cases gap : isGap c with
      | true =>
        rw [ht, scan_gap 0 cs gap] at h
        have first : ⟨kind, text, ⟨0, Text.width (c :: cs)⟩⟩ ∈ scan (0 + c.utf8Size) cs := by
          rw [h]
          exact .head _
        obtain ⟨before, -, -, span, -⟩ := mem_scan first
        have := congrArg Span.start span
        have := c.utf8Size_pos
        simp at *
        omega
      | false =>
        obtain ⟨kind', ds, rest, rfl, lexed⟩ := lexeme_eq_cons c cs
        rw [ht, scan_lexeme 0 gap lexed] at h
        simp only [List.cons.injEq, Token.mk.injEq] at h
        obtain ⟨⟨rfl, htext, -⟩, -⟩ := h
        rw [← htext, String.toList_ofList] at ht
        rw [← (List.cons.inj ht).2]
        refine ⟨c, ds, rfl, gap, ?_⟩
        rw [← (List.cons.inj ht).2] at lexed
        exact lexed
  · intro ⟨c, cs, ht, gap, lexed⟩
    rw [Kind.Lexes, ofText, ht]
    rw [← List.append_nil cs] at lexed ⊢
    rw [scan_lexeme 0 gap (by simpa using lexed), scan_nil, List.append_nil, ← ht,
      String.ofList_toList, Nat.zero_add]

end DocMarks.Token
