import DocMarks.Proofs.Checked
import DocMarks.Proofs.Framing

namespace DocMarks

def Text.bytes (cs : List Char) : List UInt8 := cs.flatMap String.utf8EncodeChar

theorem Text.bytes_cons (c : Char) (cs : List Char) :
    bytes (c :: cs) = String.utf8EncodeChar c ++ bytes cs := rfl

theorem Text.bytes_append (cs ds : List Char) : bytes (cs ++ ds) = bytes cs ++ bytes ds :=
  List.flatMap_append

theorem Text.length_bytes (cs : List Char) : (bytes cs).length = width cs := by
  induction cs with
  | nil => rfl
  | cons c cs ih =>
    rw [bytes_cons, List.length_append, String.length_utf8EncodeChar, ih, width_cons]

theorem Text.getElem?_bytes {source : String} {i : String.Pos.Raw} (h : i < source.rawEndPos) :
    (bytes source.toList)[i.byteIdx]? = some (source.getUTF8Byte i h) := by
  have data : source.toByteArray.data.toList = bytes source.toList := by
    rw [← String.utf8Encode_toList, List.utf8Encode, List.toList_data_toByteArray]
    rfl
  rw [← data, Array.getElem?_toList]
  exact Array.getElem?_eq_getElem h

namespace Token

variable {p : Nat} {cs : List Char} {t : Token}

def Covers (t : Token) (position : Nat) : Prop :=
  t.span.start ≤ position ∧ position < t.span.stop

/-- The token is cut out of the text, whose positions are counted from `base`. What is no token is
one character, or all that follows a quote. -/
structure CutFrom (t : Token) (source : String) (base : Nat) : Prop where
  nonempty : t.span.start < t.span.stop
  inside : base ≤ t.span.start ∧ t.span.stop ≤ base + source.utf8ByteSize
  text : ∃ s, t.span = s.shift base ∧ Text.slice? source s = some t.text
  start : ∀ c ∈ t.text.toList.head?, c ∉ [' ', '\t', '\r', '\n', '\x0c', '*']
  stray : t.kind = .stray → (∃ c, t.text.toList = [c]) ∨
    t.text.toList.head? = some '"' ∧ t.span.stop = base + source.utf8ByteSize

theorem scan_eq_append (p : Nat) (cs : List Char) :
    ∃ ts, scan p cs = ts ++ [finishAt (p + Text.width cs)] ∧ ∀ t ∈ ts, t.kind ≠ .finish := by
  induction p, cs using scan_induction with
  | nil p => exact ⟨[], rfl, fun _ h => nomatch h⟩
  | gap p c cs ts _ ih => rwa [Text.width_cons, ← Nat.add_assoc]
  | token p c ds rest kind ts _ lexed ih =>
    obtain ⟨us, rfl, kinds⟩ := ih
    have width : p + Text.width (c :: (ds ++ rest)) =
        p + Text.width (c :: ds) + Text.width rest := by
      rw [← List.cons_append, Text.width_append, Nat.add_assoc]
    rw [width, ← List.cons_append]
    refine ⟨_, rfl, List.forall_mem_cons.2 ⟨?_, kinds⟩⟩
    simpa [lexed] using lexeme_ne_finish c (ds ++ rest)

theorem pairwise_scan (p : Nat) (cs : List Char) :
    (scan p cs).Pairwise (fun t u => t.span.stop ≤ u.span.start) ∧
      ∀ t ∈ scan p cs, p ≤ t.span.start := by
  induction p, cs using scan_induction with
  | nil p => exact ⟨List.pairwise_singleton .., List.forall_mem_singleton.2 (Nat.le_refl p)⟩
  | gap p c cs ts _ ih =>
    obtain ⟨ordered, later⟩ := ih
    exact ⟨ordered, fun t h => Nat.le_trans (Nat.le_add_right ..) (later t h)⟩
  | token p c ds rest kind ts _ _ ih =>
    obtain ⟨ordered, later⟩ := ih
    refine ⟨List.pairwise_cons.2 ⟨later, ordered⟩, List.forall_mem_cons.2 ⟨Nat.le_refl p, ?_⟩⟩
    exact fun t h => Nat.le_trans (Nat.le_add_right ..) (later t h)

theorem utf8EncodeChar_of_isGap {c : Char} (h : isGap c) :
    String.utf8EncodeChar c = [c.toUInt8] ∧ c.utf8Size = 1 := by
  simp only [isGap_iff, List.mem_cons, List.not_mem_nil, or_false] at h
  rcases h with rfl | rfl | rfl | rfl | rfl | rfl <;> decide

theorem isGap_of_not_covers (p : Nat) (cs : List Char) :
    ∀ i < Text.width cs, (∀ t ∈ scan p cs, ¬ t.Covers (p + i)) →
      ∃ c, isGap c ∧ (Text.bytes cs)[i]? = some c.toUInt8 := by
  induction p, cs using scan_induction with
  | nil p => exact fun i h => absurd h (Nat.not_lt_zero i)
  | gap p c cs ts gap ih =>
    obtain ⟨byte, size⟩ := utf8EncodeChar_of_isGap gap
    intro i h free
    rw [Text.bytes_cons, byte]
    cases i with
    | zero => exact ⟨c, gap, rfl⟩
    | succ i =>
      rw [Text.width_cons, size] at h
      refine ih i (by omega) fun t ht => ?_
      rw [size, Nat.add_assoc, Nat.add_comm 1]
      exact free t ht
  | token p c ds rest kind ts _ _ ih =>
    intro i h free
    rw [List.forall_mem_cons] at free
    have after : Text.width (c :: ds) ≤ i := by
      by_contra before
      exact free.1 ⟨Nat.le_add_right p i, by simp only; omega⟩
    rw [← List.cons_append, Text.width_append] at h
    rw [← List.cons_append, Text.bytes_append, List.getElem?_append_right, Text.length_bytes]
    · refine ih (i - Text.width (c :: ds)) (by omega) fun t ht => ?_
      rw [Nat.add_assoc, Nat.add_sub_cancel' after]
      exact free.2 t ht
    · rwa [Text.length_bytes]

theorem stray_of_lexeme {c : Char} {ds rest : List Char}
    (h : lexeme c (ds ++ rest) = (.stray, c :: ds)) : ds = [] ∨ c = '"' ∧ rest = [] := by
  rcases lexeme_cases c (ds ++ rest) with ⟨-, _, -, h'⟩ | ⟨quote, -, h'⟩ | ⟨-, h'⟩ |
    ⟨kind, _, hn, h'⟩ | h' <;> rw [h] at h'
  · cases h'
  · exact .inr ⟨quote, List.self_eq_append_right.1 (List.cons.inj (Prod.mk.inj h').2).2⟩
  · rcases wordKind_cases (c :: (ds ++ rest).takeWhile isNameRest) with h | h | h | h <;>
      simp [h] at h'
  · cases h'
    rcases number?_kind hn with h | h <;> cases h
  · exact .inl (List.cons.inj (Prod.mk.inj h').2).2

theorem cutFrom_of_mem_ofText {source : String} {base : Nat} (h : t ∈ ofText source base)
    (more : t.kind ≠ .finish) : t.CutFrom source base := by
  obtain ⟨before, after, text, span, ⟨finish, -⟩ | ⟨c, ds, ht, gap, lexed⟩⟩ := mem_scan h
  · exact absurd finish more
  have size : source.utf8ByteSize =
      Text.width before + Text.width t.text.toList + Text.width after := by
    rw [Text.utf8ByteSize_eq_width, text, Text.width_append, Text.width_append]
  have positive : 0 < Text.width t.text.toList := by
    rw [ht, Text.width_cons]
    exact Nat.lt_add_right _ c.utf8Size_pos
  constructor
  case nonempty =>
    rw [span]
    exact Nat.lt_add_of_pos_right positive
  case inside =>
    rw [span, size]
    simp only
    omega
  case text =>
    refine ⟨⟨Text.width before, Text.width before + Text.width t.text.toList⟩, ?_, ?_⟩
    · rw [span, Span.shift, Nat.add_comm base, Nat.add_right_comm]
    · exact Text.slice?_eq_some_iff.2 ⟨before, after, text, rfl⟩
  case start =>
    rw [ht]
    intro d hd
    cases hd
    rw [← isGap_iff, gap]
    exact Bool.false_ne_true
  case stray =>
    intro stray
    rw [stray] at lexed
    rcases stray_of_lexeme lexed with rfl | ⟨rfl, rfl⟩
    · exact .inl ⟨c, ht⟩
    · right
      rw [span, size, ht]
      exact ⟨rfl, by simp [Nat.add_assoc]⟩

/-- Cutting a text into tokens is a cover of it: the tokens before the end are parts of the text in
their order, every byte between them is a gap, and `base` only moves them. -/
theorem ofText_covers_source (source : String) (base : Nat) :
    (∃ ts, ofText source base = ts ++ [finishAt (base + source.utf8ByteSize)] ∧
      (∀ t ∈ ts, t.kind ≠ .finish ∧ t.CutFrom source base) ∧
      ts.Pairwise (fun t u => t.span.stop ≤ u.span.start) ∧
      ∀ (i : String.Pos.Raw) (h : i < source.rawEndPos),
        (∀ t ∈ ts, ¬ t.Covers (base + i.byteIdx)) →
          ∃ c ∈ [' ', '\t', '\r', '\n', '\x0c', '*'], source.getUTF8Byte i h = c.toUInt8) ∧
    ofText source base = (ofText source 0).map (·.shift base) := by
  constructor
  · obtain ⟨ts, cut, kinds⟩ := scan_eq_append base source.toList
    rw [← Text.utf8ByteSize_eq_width] at cut
    refine ⟨ts, cut, fun t ht => ⟨kinds t ht, ?_⟩, ?_, ?_⟩
    · apply cutFrom_of_mem_ofText _ (kinds t ht)
      rw [ofText, cut]
      exact List.mem_append_left _ ht
    · have ordered := (pairwise_scan base source.toList).1
      rw [cut] at ordered
      exact (List.pairwise_append.1 ordered).1
    · intro i h free
      have inside : i.byteIdx < Text.width source.toList := by
        rw [← Text.utf8ByteSize_eq_width]
        exact h
      obtain ⟨c, gap, byte⟩ := isGap_of_not_covers base source.toList i.byteIdx inside (by
        rw [cut, List.forall_mem_append, List.forall_mem_singleton]
        refine ⟨free, fun covers => ?_⟩
        exact absurd covers.2 (Nat.not_lt.2 covers.1))
      rw [Text.getElem?_bytes h] at byte
      exact ⟨c, isGap_iff.1 gap, Option.some.inj byte⟩
  · rw [ofText, ofText, ← scan_shift, Nat.zero_add]

end Token
end DocMarks
