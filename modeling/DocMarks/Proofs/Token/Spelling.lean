import DocMarks.Proofs.Numeral
import DocMarks.Proofs.Text.Quoted

namespace DocMarks.Token

variable {c : Char} {cs ds : List Char} {P Q R : List Token → Prop}

/-- The text is cut into tokens of which `P` holds, whatever comes after a delimiter behind it. -/
def Spells (cs : List Char) (P : List Token → Prop) : Prop :=
  ∀ p rest, Delimited rest →
    ∃ ts, scan p (cs ++ rest) = ts ++ scan (p + Text.width cs) rest ∧ P ts

def Single (kind : Kind) (text : String) (ts : List Token) : Prop :=
  ∃ span, ts = [⟨kind, text, span⟩]

theorem Spells.imp (h : Spells cs P) (weaker : ∀ ts, P ts → Q ts) : Spells cs Q := by
  intro p rest delimited
  obtain ⟨ts, cut, hts⟩ := h p rest delimited
  exact ⟨ts, cut, weaker ts hts⟩

theorem spells_nil (h : P []) : Spells [] P := fun _ _ _ => ⟨[], rfl, h⟩

theorem Spells.append (first : Spells cs P) (delimiter : isDelimiter c)
    (second : Spells (c :: ds) Q) (join : ∀ us vs, P us → Q vs → R (us ++ vs)) :
    Spells (cs ++ c :: ds) R := by
  intro p rest delimited
  obtain ⟨us, hus, pus⟩ := first p (c :: ds ++ rest) (delimited_cons delimiter)
  obtain ⟨vs, hvs, qvs⟩ := second (p + Text.width cs) rest delimited
  refine ⟨us ++ vs, ?_, join us vs pus qvs⟩
  rw [List.append_assoc, hus, hvs, Text.width_append, Nat.add_assoc, List.append_assoc]

theorem Spells.gap (h : Spells cs P) (gap : isGap c) : Spells (c :: cs) P := by
  intro p rest delimited
  obtain ⟨ts, cut, hts⟩ := h (p + c.utf8Size) rest delimited
  refine ⟨ts, ?_, hts⟩
  rw [List.cons_append, scan_gap p _ gap, cut, Text.width_cons, Nat.add_assoc]

theorem spells_single {kind : Kind} (gap : isGap c = false)
    (lexed : ∀ rest, Delimited rest → lexeme c (cs ++ rest) = (kind, c :: cs)) :
    Spells (c :: cs) (Single kind (String.ofList (c :: cs))) := by
  intro p rest delimited
  exact ⟨[_], scan_lexeme p gap (lexed rest delimited), _, rfl⟩

theorem Spells.mark {kind : Kind} (h : Spells cs P) (mark : punctuation? c = some kind)
    (join : ∀ t ts, t.kind = kind → P ts → Q (t :: ts)) : Spells (c :: cs) Q := by
  intro p rest delimited
  obtain ⟨gap, lexed⟩ := lexeme_mark mark (cs ++ rest)
  obtain ⟨ts, cut, hts⟩ := h (p + c.utf8Size) rest delimited
  refine ⟨_, ?_, join ⟨kind, String.ofList [c], ⟨p, p + c.utf8Size⟩⟩ ts rfl hts⟩
  rw [List.cons_append, scan_single p gap lexed, cut, Text.width_cons, Nat.add_assoc,
    List.cons_append]

theorem spells_mark {kind : Kind} (mark : punctuation? c = some kind)
    (h : ∀ t, t.kind = kind → Q [t]) : Spells [c] Q :=
  (spells_nil (P := (· = [])) rfl).mark mark fun t _ ht hts => hts ▸ h t ht

theorem spells_word (start : isNameStart c) (rest : cs.all isNameRest) :
    Spells (c :: cs) (Single (wordKind (c :: cs)) (String.ofList (c :: cs))) := by
  apply spells_single
  · have gaps : [' ', '\t', '\r', '\n', '\x0c', '*'].all (!isNameStart ·) := by decide
    rw [← Bool.not_eq_true]
    intro gap
    have := List.all_eq_true.1 gaps c (isGap_iff.1 gap)
    rw [start] at this
    contradiction
  · intro after delimited
    rw [lexeme_word start, delimited.takeWhile_append (fun _ => isNameRest_of_isDelimiter)
      (List.all_eq_true.1 rest)]

theorem spells_name {name : String} (h : Kind.name.Lexes name) :
    Spells name.toList (Single .name name) := by
  obtain ⟨c, cs, text, -, lexed⟩ := Kind.lexes_iff.1 h
  obtain ⟨start, word, taken⟩ := lexeme_eq_name_iff.1 lexed
  have rest : cs.all isNameRest := taken ▸ List.all_takeWhile
  have spells := spells_word start rest
  rwa [word, ← text, String.ofList_toList] at spells

theorem spells_integer (z : Int) : Spells (toString z).toList (Single .integer (toString z)) := by
  obtain ⟨c, cs, text, gap, quote, word⟩ := toString_eq_cons z
  have spells : Spells (c :: cs) (Single .integer (String.ofList (c :: cs))) := by
    apply spells_single gap
    intro rest delimited
    apply lexeme_number quote word
    rw [← List.cons_append, ← text]
    exact number?_toString z delimited
  rwa [← text, String.ofList_toList] at spells

theorem spells_quoted (cs : List Char) :
    Spells (Text.Quoted.encode cs) (Single .string (String.ofList (Text.Quoted.encode cs))) := by
  apply spells_single (by decide)
  intro rest delimited
  apply lexeme_eq_string_iff.2
  refine ⟨rfl, ?_⟩
  rw [List.append_assoc]
  apply closing?_double
  -- a quote behind the last one would double it
  intro quote
  exact absurd (delimited '"' quote) (by decide)

theorem spells_joined {α : Type} {L : List Token → List α → Prop} (nil : L [] [])
    (comma : ∀ t ts xs, t.kind = .comma → L ts xs → L (t :: ts) xs) (text : α → String)
    (xs : List α)
    (h : ∀ x ∈ xs, Spells (text x).toList fun ts => ∀ us ys, L us ys → L (ts ++ us) (x :: ys)) :
    Spells (String.intercalate ", " (xs.map text)).toList (L · xs) := by
  induction xs with
  | nil => exact spells_nil nil
  | cons x xs ih =>
    have first := h x (.head _)
    cases xs with
    | nil =>
      apply first.imp
      intro ts prepend
      simpa using prepend [] [] nil
    | cons y xs =>
      have spaced := (ih fun z hz => h z (.tail _ hz)).gap (c := ' ') rfl
      have rest := spaced.mark (c := ',') (Q := (L · (y :: xs))) rfl
        fun t ts => comma t ts (y :: xs)
      rw [List.map_cons, List.map_cons, String.intercalate_cons_cons, String.toList_append,
        String.toList_append, List.append_assoc]
      exact first.append (c := ',') rfl rest fun us vs prepend hvs => prepend vs _ hvs

end DocMarks.Token
