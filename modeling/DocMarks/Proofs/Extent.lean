import DocMarks.Proofs.Openings

namespace DocMarks

namespace Text

variable {p : Char → Bool} {cs ds : List Char}

theorem not_of_getLast?_trimEnd {c : Char} (h : (trimEnd p cs).getLast? = some c) : ¬ p c := by
  rw [trimEnd, List.getLast?_reverse] at h
  have stopped := List.head?_dropWhile_not p cs.reverse
  simpa [h] using stopped

theorem trimEnd_of_getLast? {c : Char} (last : cs.getLast? = some c) (h : ¬ p c) :
    trimEnd p cs = cs := by
  obtain ⟨front, rfl⟩ := List.getLast?_eq_some_iff.1 last
  rw [trimEnd, List.reverse_append, List.reverse_singleton, List.singleton_append,
    List.dropWhile_cons_of_neg h, List.reverse_cons, List.reverse_reverse]

theorem append_inj_of_width {cs' ds' : List Char} (h : cs ++ ds = cs' ++ ds')
    (same : width cs = width cs') : cs = cs' ∧ ds = ds' := by
  obtain ⟨between, rfl, rfl⟩ := exists_append_of_width_le h (Nat.le_of_eq same)
  rw [width_append] at same
  have empty : between = [] := eq_nil_of_width (by omega)
  simp [empty]

theorem occursAt_singleton_iff {c : Char} {i : Nat} :
    OccursAt (String.singleton c) cs i ↔
      ∃ before after, cs = before ++ c :: after ∧ width before = i := by
  simp [OccursAt]

end Text

namespace Region

open Text

variable {body : String} {p : Nat} {opened : Bool} {cs : List Char} {r : Region}

theorem openFrom?_eq_none_iff :
    openFrom? p opened cs = none ↔
      ∀ before after, cs = before ++ '@' :: after → ¬ opensAfter opened before := by
  induction cs generalizing p opened with
  | nil => simp [openFrom?]
  | cons c cs ih =>
    rw [openFrom?]
    split
    case isTrue here =>
      rw [Bool.and_eq_true, beq_iff_eq] at here
      simp only [reduceCtorEq, false_iff]
      intro closed
      exact closed [] cs (by rw [here.1]; rfl) here.2
    case isFalse other =>
      rw [Bool.and_eq_true, beq_iff_eq] at other
      rw [ih]
      constructor
      · rintro closed (_ | ⟨_, before⟩) after split
        · cases split
          exact fun here => other ⟨rfl, here⟩
        · cases split
          exact closed before after rfl
      · rintro closed before after rfl
        exact closed (c :: before) after rfl

theorem openFrom?_eq_some_iff :
    openFrom? p opened cs = some r ↔
      ∃ before after, cs = before ++ '@' :: after ∧ r = ⟨p + width before, '@' :: after⟩ ∧
        opensAfter opened before ∧ openFrom? p opened before = none := by
  constructor
  · intro h
    induction cs generalizing p opened with
    | nil => cases h
    | cons c cs ih =>
      rw [openFrom?] at h
      split at h
      case isTrue here =>
        rw [Bool.and_eq_true, beq_iff_eq] at here
        cases h
        exact ⟨[], cs, by rw [here.1]; rfl, by rw [here.1]; rfl, here.2, rfl⟩
      case isFalse other =>
        obtain ⟨before, after, rfl, rfl, opens, closed⟩ := ih h
        refine ⟨c :: before, after, rfl, ?_, opens, ?_⟩
        · rw [width_cons, Nat.add_assoc]
        · rw [openFrom?, if_neg other, closed]
  · rintro ⟨before, after, rfl, rfl, opens, closed⟩
    rw [openFrom?_append, closed]
    simp only [opens, openFrom?, beq_self_eq_true, Bool.and_self, if_true]

/-- An at-sign stands at the position, and there is nothing before it or one of the characters after
which it opens a region. -/
def OpensAt (body : String) (position : Nat) : Prop :=
  OccursAt "@" body.toList position ∧
    (position = 0 ∨ ∃ c, (c = ' ' ∨ c = '\t' ∨ c = '*') ∧
      OccursAt (String.singleton c) body.toList (position - 1))

theorem opens_iff {c : Char} : opens c ↔ c = ' ' ∨ c = '\t' ∨ c = '*' := by
  simp [opens, or_assoc]

theorem isDecoration_iff {c : Char} : isDecoration c ↔ c = '*' ∨ c = '/' ∨ isBlank c := by
  simp [isDecoration, or_assoc]

theorem utf8Size_of_opens {c : Char} (h : opens c) : c.utf8Size = 1 := by
  rcases opens_iff.1 h with rfl | rfl | rfl <;> rfl

theorem opensAt_iff :
    OpensAt body p ↔
      ∃ before after, body.toList = before ++ '@' :: after ∧ width before = p ∧
        opensAfter true before := by
  constructor
  · rintro ⟨⟨before, after, split, rfl⟩, first | ⟨c, boundary, occurs⟩⟩
    · obtain rfl := eq_nil_of_width first
      exact ⟨[], after, split, rfl, rfl⟩
    · refine ⟨before, after, split, rfl, ?_⟩
      have size := utf8Size_of_opens (opens_iff.2 boundary)
      obtain ⟨front, behind, split', start⟩ := occursAt_singleton_iff.1 occurs
      obtain ⟨_ | ⟨_, between⟩, rfl, same⟩ :=
        exists_append_of_width_le (split'.symm.trans split) (by omega)
      · -- only an empty text is as wide as it is one byte before
        rw [List.append_nil] at start
        have empty : front = [] := eq_nil_of_width (by omega)
        rw [empty]
        rfl
      · cases same
        rw [width_append, width_cons, size] at start
        have empty : between = [] := eq_nil_of_width (by omega)
        rw [empty, opensAfter_of_getLast? List.getLast?_concat]
        exact opens_iff.2 boundary
  · rintro ⟨before, after, split, rfl, boundary⟩
    refine ⟨⟨before, after, split, rfl⟩, ?_⟩
    rcases List.eq_nil_or_concat before with rfl | ⟨front, c, rfl⟩
    · exact .inl rfl
    · rw [List.concat_eq_append, opensAfter_of_getLast? List.getLast?_concat] at boundary
      refine .inr ⟨c, opens_iff.1 boundary, occursAt_singleton_iff.2 ⟨front, '@' :: after, ?_, ?_⟩⟩
      · simpa using split
      · simp [utf8Size_of_opens boundary]

structure Cut (before part after : List Char) : Prop where
  head : part.head? = some '@'
  boundary : opensAfter true before
  closed : openFrom? 0 true before = none
  last : ∃ c, part.getLast? = some c ∧ ¬ isDecoration c
  trailing : ∀ c ∈ after, isDecoration c

theorem ofChars?_eq_some_iff :
    ofChars? cs = some r ↔
      ∃ before after, cs = before ++ (r.text ++ after) ∧ r.start = width before ∧
        Cut before r.text after := by
  rw [ofChars?, Option.map_eq_some_iff]
  constructor
  · rintro ⟨_, open?, rfl⟩
    obtain ⟨before, behind, rfl, rfl, boundary, closed⟩ := openFrom?_eq_some_iff.1 open?
    obtain ⟨after, split, trailing⟩ := eq_trimEnd_append isDecoration ('@' :: behind)
    have head : (trimEnd isDecoration ('@' :: behind)).head? = some '@' := head?_trimEnd rfl
    refine ⟨before, after, by rw [← split], Nat.zero_add _, head, boundary, closed, ?_, trailing⟩
    have ne : trimEnd isDecoration ('@' :: behind) ≠ [] := by
      intro empty
      simp [empty] at head
    obtain ⟨c, last⟩ := Option.isSome_iff_exists.1 (List.getLast?_isSome.2 ne)
    exact ⟨c, last, not_of_getLast?_trimEnd last⟩
  · rintro ⟨before, after, rfl, start, head, boundary, closed, ⟨c, last, plain⟩, trailing⟩
    obtain ⟨behind, text⟩ := List.head?_eq_some_iff.1 head
    refine ⟨⟨r.start, r.text ++ after⟩, openFrom?_eq_some_iff.2 ?_, ?_⟩
    · exact ⟨before, behind ++ after, by rw [text]; rfl, by rw [start, text, Nat.zero_add]; rfl,
        boundary, closed⟩
    · rw [trimEnd_append_of_all trailing, trimEnd_of_getLast? last plain]

structure Bounds (body : String) (s : Span) : Prop where
  opens : OpensAt body s.start
  first : ∀ position, OpensAt body position → s.start ≤ position
  start_lt_stop : s.start < s.stop
  stop_le : s.stop ≤ body.utf8ByteSize
  start_valid : String.Pos.Raw.IsValid body ⟨s.start⟩
  stop_valid : String.Pos.Raw.IsValid body ⟨s.stop⟩
  last : ∃ c, slice? body ⟨s.stop - c.utf8Size, s.stop⟩ = some (String.singleton c) ∧
    ¬ (c = '*' ∨ c = '/' ∨ isBlank c)
  rest : ∃ after, slice? body ⟨s.stop, body.utf8ByteSize⟩ = some after ∧
    ∀ c ∈ after.toList, c = '*' ∨ c = '/' ∨ isBlank c

theorem Cut.bounds {before part after : List Char} (cut : Cut before part after)
    (split : body.toList = before ++ (part ++ after)) :
    Bounds body ⟨width before, width before + width part⟩ := by
  obtain ⟨behind, rfl⟩ := List.head?_eq_some_iff.1 cut.head
  have size : body.utf8ByteSize = width before + width ('@' :: behind) + width after := by
    rw [utf8ByteSize_eq_width, split, width_append, width_append, Nat.add_assoc]
  constructor
  case opens => exact opensAt_iff.2 ⟨before, behind ++ after, split, rfl, cut.boundary⟩
  case first =>
    intro position opens
    obtain ⟨front, rest, split', rfl, boundary⟩ := opensAt_iff.1 opens
    refine Nat.le_of_not_lt fun lt => ?_
    obtain ⟨_ | ⟨_, between⟩, rfl, same⟩ :=
      exists_append_of_width_le (split'.symm.trans split) (Nat.le_of_lt lt)
    · simp at lt
    · cases same
      exact openFrom?_eq_none_iff.1 cut.closed front between rfl boundary
  case start_lt_stop =>
    have := Char.utf8Size_pos '@'
    simp only [width_cons]
    omega
  case stop_le =>
    rw [size]
    exact Nat.le_add_right _ _
  case start_valid => exact isValid_iff.2 ⟨before, _, split, rfl⟩
  case stop_valid =>
    exact isValid_iff.2 ⟨before ++ '@' :: behind, after, by rw [split]; simp, by rw [width_append]⟩
  case last =>
    obtain ⟨c, last, plain⟩ := cut.last
    obtain ⟨front, text⟩ := List.getLast?_eq_some_iff.1 last
    refine ⟨c, slice?_eq_some_iff.2 ⟨before ++ front, after, ?_, ?_⟩, mt isDecoration_iff.2 plain⟩
    · rw [split, text]
      simp
    · rw [text, width_append, width_append, ← Nat.add_assoc]
      simp
  case rest =>
    refine ⟨String.ofList after, slice?_eq_some_iff.2 ⟨before ++ '@' :: behind, [], ?_, ?_⟩, ?_⟩
    · rw [split]
      simp
    · rw [size, String.toList_ofList, width_append]
    · intro c mem
      exact isDecoration_iff.1 (cut.trailing c (by simpa using mem))

/-- The bytes leave no choice: they cut the comment as the search does. -/
theorem Bounds.exists_cut {s : Span} (h : Bounds body s) :
    ∃ before part after, body.toList = before ++ (part ++ after) ∧
      s = ⟨width before, width before + width part⟩ ∧ Cut before part after := by
  obtain ⟨before, behind, split, start, boundary⟩ := opensAt_iff.1 h.opens
  obtain ⟨c, last, plain⟩ := h.last
  obtain ⟨rest, cut, trailing⟩ := h.rest
  obtain ⟨front, after, splitLast, stop⟩ := slice?_eq_some_iff.1 last
  obtain ⟨upTo, tail, splitRest, stop'⟩ := slice?_eq_some_iff.1 cut
  rw [String.toList_singleton] at splitLast stop
  rw [Span.mk.injEq] at stop stop'
  obtain ⟨rfl, behindRest⟩ := append_inj_of_width
    ((List.append_assoc ..).symm.trans (splitRest.symm.trans splitLast))
    (by rw [width_append, ← stop.2, ← stop'.1])
  obtain rfl : after = rest.toList := by
    have size := congrArg width splitRest
    rw [← utf8ByteSize_eq_width, stop'.2] at size
    simp only [width_append] at size
    have empty : tail = [] := eq_nil_of_width (by omega)
    rw [← behindRest, empty, List.append_nil]
  obtain ⟨part, whole, rest'⟩ := exists_append_of_width_le (split.symm.trans splitLast) (by
    have := h.start_lt_stop
    omega)
  have ne : part ≠ [] := by
    rintro rfl
    have := h.start_lt_stop
    rw [List.append_nil] at whole
    rw [whole] at stop'
    omega
  refine ⟨before, part, rest.toList, by rw [split, rest'], ?_, ?_⟩
  · have width := congrArg width whole
    rw [width_append before] at width
    cases s
    simp_all
  · obtain ⟨head, part', rfl⟩ := List.exists_cons_of_ne_nil ne
    cases rest'
    refine ⟨rfl, boundary, ?_, ⟨c, ?_, mt isDecoration_iff.1 plain⟩, fun c mem =>
      isDecoration_iff.2 (trailing c mem)⟩
    · rw [openFrom?_eq_none_iff]
      rintro front' after' rfl opens
      have earlier := h.first _ (opensAt_iff.2 ⟨front', _, by simpa using split, rfl, opens⟩)
      have := Char.utf8Size_pos '@'
      rw [← start, width_append, width_cons] at earlier
      omega
    · have last := congrArg List.getLast? whole
      rw [List.getLast?_concat, List.getLast?_append_of_ne_nil _ ne] at last
      exact last.symm

theorem map_span_eq_some_iff {s : Span} : (ofBody? body).map span = some s ↔ Bounds body s := by
  rw [Option.map_eq_some_iff]
  constructor
  · rintro ⟨r, region, rfl⟩
    obtain ⟨before, after, split, start, cut⟩ := ofChars?_eq_some_iff.1 region
    rw [span, start]
    exact cut.bounds split
  · intro bounds
    obtain ⟨before, part, after, split, rfl, cut⟩ := bounds.exists_cut
    exact ⟨⟨width before, part⟩, ofChars?_eq_some_iff.2 ⟨before, after, split, rfl, cut⟩, rfl⟩

theorem ofBody?_eq_none_iff : ofBody? body = none ↔ ∀ position, ¬ OpensAt body position := by
  rw [ofBody?, ofChars?, Option.map_eq_none_iff, openFrom?_eq_none_iff]
  simp only [opensAt_iff, not_exists, not_and]
  constructor
  · rintro closed _ before after split rfl
    exact closed before after split
  · intro closed before after split
    exact closed _ before after split rfl

end Region

open Text in
/-- A comment has a region exactly if an at-sign opens one. Its span is told by its bytes: it goes from
the first such at-sign to the last character that is no decoration. The region of that part is all of
it. -/
theorem Region.span_ofBody?_exact (body : String) :
    (ofBody? body = none ↔ ∀ position, ¬ OpensAt body position) ∧
    (∀ s, (ofBody? body).map span = some s ↔ Bounds body s) ∧
    ∀ s, (ofBody? body).map span = some s →
      ∃ text, slice? body s = some text ∧ (ofBody? text).map span = some ⟨0, s.length⟩ := by
  refine ⟨ofBody?_eq_none_iff, fun s => map_span_eq_some_iff, ?_⟩
  intro s region
  obtain ⟨before, part, after, split, rfl, cut⟩ := (map_span_eq_some_iff.1 region).exists_cut
  refine ⟨String.ofList part, slice?_eq_some_iff.2 ⟨before, after, by simpa using split, by simp⟩, ?_⟩
  have whole : Cut [] part [] := ⟨cut.head, rfl, rfl, cut.last, nofun⟩
  have bounds : Bounds (String.ofList part) ⟨_, _⟩ := whole.bounds (by simp)
  rw [map_span_eq_some_iff]
  simpa [Span.length] using bounds

theorem Region.span_ofBody?_exact_multibyte :
    (ofBody? "é@a\n@b */").map span = none ∧
    (∀ position, ¬ OpensAt "é@a\n@b */" position) ∧
    (ofBody? "é@a *@b(\"é\")\n@é\u3000*/").map span = some ⟨6, 18⟩ ∧
    Bounds "é@a *@b(\"é\")\n@é\u3000*/" ⟨6, 18⟩ ∧
    ∃ text, Text.slice? "é@a *@b(\"é\")\n@é\u3000*/" ⟨6, 18⟩ = some text ∧
      (ofBody? text).map span = some ⟨0, 12⟩ := by
  have closed : ofBody? "é@a\n@b */" = none := by decide +kernel
  have region : (ofBody? "é@a *@b(\"é\")\n@é\u3000*/").map span = some ⟨6, 18⟩ := by decide +kernel
  obtain ⟨none_iff, -, -⟩ := span_ofBody?_exact "é@a\n@b */"
  obtain ⟨-, bounds, whole⟩ := span_ofBody?_exact "é@a *@b(\"é\")\n@é\u3000*/"
  exact ⟨by rw [closed]; rfl, none_iff.1 closed, region, (bounds _).1 region, whole _ region⟩

end DocMarks
