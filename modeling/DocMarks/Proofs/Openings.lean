import DocMarks.Proofs.Checked
import DocMarks.Proofs.DocComment

/-! Where doc comments open. The search cuts a source into parts, one for each of its steps: plain
text, empty comments, doc comments and at most one that is never closed, at the end. Whatever looks
like an opening stands in one of the last three. -/

namespace DocMarks

namespace Text

def OccursAt (pattern : String) (cs : List Char) (i : Nat) : Prop :=
  ∃ before after, cs = before ++ (pattern.toList ++ after) ∧ width before = i

variable {pattern : String} {cs : List Char}

theorem occursAt_zero_iff : OccursAt pattern cs 0 ↔ pattern.toList <+: cs := by
  constructor
  · rintro ⟨before, after, rfl, start⟩
    rw [eq_nil_of_width start]
    exact ⟨after, rfl⟩
  · rintro ⟨after, rfl⟩
    exact ⟨[], after, rfl, rfl⟩

theorem occursAt_append_iff (before : List Char) (i : Nat) :
    OccursAt pattern (before ++ cs) (width before + i) ↔ OccursAt pattern cs i := by
  constructor
  · rintro ⟨front, after, split, start⟩
    obtain ⟨between, rfl, rfl⟩ := exists_append_of_width_le split (by omega)
    exact ⟨between, after, rfl, by rw [width_append] at start; omega⟩
  · rintro ⟨front, after, rfl, rfl⟩
    exact ⟨before ++ front, after, by simp, width_append before front⟩

theorem OccursAt.add_width_le {i : Nat} (h : OccursAt pattern cs i) :
    i + width pattern.toList ≤ width cs := by
  obtain ⟨before, after, rfl, rfl⟩ := h
  rw [width_append, width_append]
  omega

theorem OccursAt.cons_cases {c : Char} {i : Nat} (h : OccursAt pattern (c :: cs) i) :
    pattern.toList <+: c :: cs ∨ ∃ k, i = c.utf8Size + k ∧ OccursAt pattern cs k := by
  obtain ⟨_ | ⟨d, before⟩, after, split, start⟩ := h
  · exact .inl ⟨after, split.symm⟩
  · cases split
    exact .inr ⟨width before, start.symm, before, after, rfl, rfl⟩

end Text

namespace DocComment

open Text

variable {cs rest text : List Char} {position line : Nat}

theorem closing?_eq_none (h : closing? cs = none) (i : Nat) : ¬ OccursAt "*/" cs i := by
  fun_induction closing? cs generalizing i with
  | case1 =>
    rintro ⟨before, after, split, -⟩
    simp at split
  | case2 cs => cases h
  | case3 c cs other ih =>
    intro occurs
    rcases occurs.cons_cases with ⟨after, split⟩ | ⟨k, -, occurs⟩
    · cases split
      exact other after rfl rfl
    · exact ih (Option.map_eq_none_iff.1 h) k occurs

theorem closing?_eq_append (h : closing? cs = some text) : ∃ front, text = front ++ ['*', '/'] := by
  fun_induction closing? cs generalizing text with
  | case1 => cases h
  | case2 cs =>
    cases h
    exact ⟨[], rfl⟩
  | case3 c cs other ih =>
    obtain ⟨rest, found, rfl⟩ := Option.map_eq_some_iff.1 h
    obtain ⟨front, rfl⟩ := ih found
    exact ⟨c :: front, rfl⟩

theorem closing?_first (h : closing? cs = some text) {i : Nat} (occurs : OccursAt "*/" text i) :
    i + 2 = width text := by
  fun_induction closing? cs generalizing text i with
  | case1 => cases h
  | case2 cs =>
    cases h
    obtain ⟨_ | ⟨a, _ | ⟨b, before⟩⟩, after, split, rfl⟩ := occurs
    · rfl
    · simp at split
    · simp at split
  | case3 c cs other ih =>
    obtain ⟨rest, found, rfl⟩ := Option.map_eq_some_iff.1 h
    rcases occurs.cons_cases with ⟨after, split⟩ | ⟨k, rfl, later⟩
    · obtain ⟨tail, rfl⟩ := isPrefix_closing? found
      cases split
      exact absurd rfl (other _ rfl)
    · rw [width_cons, ← ih found later, Nat.add_assoc]

theorem occursAt_closing?_iff (h : closing? cs = some text) (i : Nat) :
    OccursAt "*/" text i ↔ i + 2 = width text := by
  refine ⟨closing?_first h, ?_⟩
  intro last
  obtain ⟨front, rfl⟩ := closing?_eq_append h
  rw [width_append] at last
  exact ⟨front, [], by simp, (Nat.add_right_cancel last).symm⟩

inductive Part where
  | text (c : Char)
  | emptyComment
  | comment (text : List Char)
  | unclosed (text : List Char)

namespace Part

def chars : Part → List Char
  | .text c => [c]
  | .emptyComment => ['/', '*', '*', '/']
  | .comment text => text
  | .unclosed text => text

def start : Part → Start
  | .text _ => .other
  | .emptyComment => .emptyComment
  | .comment text => .comment text
  | .unclosed _ => .unclosed

def found (position line : Nat) : Part → List DocComment
  | .comment text => [⟨String.ofList text, ⟨position, position + width text⟩, line⟩]
  | _ => []

def charsOf (ps : List Part) : List Char := ps.flatMap chars

@[simp] theorem charsOf_nil : charsOf [] = [] := rfl

@[simp] theorem charsOf_cons (x : Part) (ps : List Part) :
    charsOf (x :: ps) = x.chars ++ charsOf ps := rfl

@[simp] theorem charsOf_append (ps qs : List Part) :
    charsOf (ps ++ qs) = charsOf ps ++ charsOf qs := List.flatMap_append

def At (ps : List Part) (x : Part) (i : Nat) : Prop :=
  ∃ before after, ps = before ++ x :: after ∧ width (charsOf before) = i

end Part

/-- The search cuts the text into the parts. After a comment that is not closed there is nothing. -/
inductive Parted : List Char → List Part → Prop
  | nil : Parted [] []
  | cons (x) {cs ps} : startOf (x.chars ++ cs) = x.start → (x.start = .unclosed → ps = []) →
      Parted cs ps → Parted (x.chars ++ cs) (x :: ps)

theorem exists_parted (cs : List Char) : ∃ ps, Parted cs ps := by
  induction cs using search_induction with
  | nil => exact ⟨[], .nil⟩
  | other c cs start ih =>
    obtain ⟨ps, parted⟩ := ih
    exact ⟨.text c :: ps, .cons (.text c) start nofun parted⟩
  | emptyComment cs ih =>
    obtain ⟨ps, parted⟩ := ih
    exact ⟨.emptyComment :: ps, .cons .emptyComment rfl nofun parted⟩
  | unclosed cs start =>
    rw [← List.append_nil cs] at start ⊢
    exact ⟨[.unclosed cs], .cons (.unclosed cs) start (fun _ => rfl) .nil⟩
  | comment text rest start ih =>
    obtain ⟨ps, parted⟩ := ih
    exact ⟨.comment text :: ps, .cons (.comment text) start nofun parted⟩

theorem Part.mem_found_iff {x : Part} {c : DocComment} :
    c ∈ x.found position line ↔ ∃ text, x = .comment text ∧
      c = ⟨String.ofList text, ⟨position, position + width text⟩, line⟩ := by
  cases x with
  | comment text => simp [found]
  | _ => simp [found]

namespace Parted

variable {ps : List Part} {x : Part} {c : DocComment}

theorem charsOf_eq (h : Parted cs ps) : Part.charsOf ps = cs := by
  induction h with
  | nil => rfl
  | cons x _ _ _ ih => rw [Part.charsOf_cons, ih]

theorem split {before after : List Part} (h : Parted cs (before ++ x :: after)) :
    ∃ rest, cs = Part.charsOf before ++ (x.chars ++ rest) ∧ startOf (x.chars ++ rest) = x.start ∧
      (x.start = .unclosed → after = []) ∧ Parted rest after := by
  induction before generalizing cs with
  | nil =>
    cases h with
    | cons _ start last parted => exact ⟨_, rfl, start, last, parted⟩
  | cons y before ih =>
    cases h with
    | cons _ _ _ parted =>
      obtain ⟨rest, rfl, start, last, parted⟩ := ih parted
      exact ⟨rest, by simp, start, last, parted⟩

theorem findFrom_cons (start : startOf (x.chars ++ rest) = x.start)
    (last : x.start = .unclosed → ps = []) (parted : Parted rest ps) :
    findFrom 0 position line (x.chars ++ rest) =
      x.found position line ++
        findFrom 0 (position + width x.chars) (line + x.chars.count '\n') rest := by
  cases x with
  | text c =>
    have lines : lineAfter line c = line + [c].count '\n' := lineAfter_add_count line c []
    exact (findFrom_other start).trans (by rw [lines]; rfl)
  | emptyComment => exact findFrom_emptyComment
  | comment text => exact findFrom_comment start
  | unclosed text =>
    obtain rfl := last rfl
    cases parted
    rw [List.append_nil] at start ⊢
    cases text with
    | nil => cases start
    | cons c cs =>
      have start : startOf (c :: cs) = .unclosed := start
      simp only [Part.chars, findFrom, start]
      rfl

theorem mem_findFrom_iff (h : Parted cs ps) :
    c ∈ findFrom 0 position line cs ↔
      ∃ before text after, ps = before ++ .comment text :: after ∧
        c = ⟨String.ofList text, ⟨position + width (Part.charsOf before),
          position + width (Part.charsOf before) + width text⟩,
          line + (Part.charsOf before).count '\n'⟩ := by
  induction h generalizing position line with
  | nil => simp [findFrom]
  | @cons x cs ps start last parted ih =>
    rw [findFrom_cons start last parted, List.mem_append, Part.mem_found_iff, ih]
    constructor
    · rintro (⟨text, rfl, rfl⟩ | ⟨before, text, after, rfl, rfl⟩)
      · exact ⟨[], text, ps, rfl, rfl⟩
      · refine ⟨x :: before, text, after, rfl, ?_⟩
        simp [Nat.add_assoc]
    · rintro ⟨_ | ⟨y, before⟩, text, after, split, rfl⟩
      · cases split
        exact .inl ⟨text, rfl, rfl⟩
      · cases split
        exact .inr ⟨before, text, after, rfl, by simp [Nat.add_assoc]⟩

theorem pairwise_findFrom (h : Parted cs ps) :
    (findFrom 0 position line cs).Pairwise fun c d => c.span.stop ≤ d.span.start := by
  induction h generalizing position line with
  | nil => exact .nil
  | @cons x cs ps start last parted ih =>
    rw [findFrom_cons start last parted, List.pairwise_append]
    refine ⟨?_, ih, ?_⟩
    · cases x with
      | comment text => exact List.pairwise_singleton ..
      | _ => exact .nil
    · intro c first d later
      obtain ⟨text, rfl, rfl⟩ := Part.mem_found_iff.1 first
      obtain ⟨before, _, after, -, rfl⟩ := parted.mem_findFrom_iff.1 later
      exact Nat.le_add_right _ _

end Parted

theorem startOf_eq_other (h : startOf cs = .other) : ¬ "/**".toList <+: cs := by
  revert h
  fun_cases startOf cs with
  | case4 cs _ other =>
    rintro - ⟨after, same⟩
    exact other after same.symm
  | _ => rintro ⟨⟩

theorem startOf_eq_unclosed (h : startOf cs = .unclosed) :
    ¬ "/**/".toList <+: cs ∧ ∃ body, cs = '/' :: '*' :: '*' :: body ∧ closing? body = none := by
  revert h
  fun_cases startOf cs with
  | case2 cs other none =>
    rintro -
    refine ⟨?_, cs, rfl, none⟩
    rintro ⟨after, same⟩
    cases same
    exact other after rfl
  | _ => rintro ⟨⟩

theorem startOf_eq_comment_append (h : startOf (text ++ rest) = .comment text) :
    ¬ "/**/".toList <+: text ++ rest ∧
      ∃ body, text = '/' :: '*' :: '*' :: body ∧ closing? (body ++ rest) = some body := by
  generalize same : text ++ rest = cs at h ⊢
  revert h
  fun_cases startOf cs with
  | case3 cs other body closed =>
    rintro ⟨⟩
    cases same
    refine ⟨?_, body, rfl, closed⟩
    rintro ⟨after, same⟩
    have tail : '/' :: after = body ++ rest := by simpa using same
    exact other after tail.symm
  | _ => rintro ⟨⟩

namespace Part

variable {ps before after before' after' : List Part} {x y : Part} {i : Nat}

theorem exists_covering (h : i < width (charsOf ps)) :
    ∃ before x after, ps = before ++ x :: after ∧ width (charsOf before) ≤ i ∧
      i < width (charsOf before) + width x.chars := by
  induction ps generalizing i with
  | nil => cases h
  | cons x ps ih =>
    by_cases inside : i < width x.chars
    · exact ⟨[], x, ps, rfl, Nat.zero_le i, by simpa using inside⟩
    · rw [charsOf_cons, width_append] at h
      obtain ⟨before, y, after, rfl, first, last⟩ := @ih (i - width x.chars) (by omega)
      refine ⟨x :: before, y, after, rfl, ?_, ?_⟩
      · rw [charsOf_cons, width_append]
        omega
      · rw [charsOf_cons, width_append]
        omega

theorem before_or_after (h : before ++ x :: after = before' ++ y :: after') (ne : x ≠ y) :
    (∃ between, before' = before ++ x :: between ∧ after = between ++ y :: after') ∨
      ∃ between, before = before' ++ y :: between ∧ after' = between ++ x :: after := by
  rcases List.append_eq_append_iff.1 h with
    ⟨_ | ⟨z, between⟩, rfl, same⟩ | ⟨_ | ⟨z, between⟩, rfl, same⟩
  · cases same
    exact absurd rfl ne
  · cases same
    exact .inl ⟨between, rfl, rfl⟩
  · cases same
    exact absurd rfl ne
  · cases same
    exact .inr ⟨between, rfl, rfl⟩

end Part

/-- The comment stands in the source where it says, opens as a doc comment does, and is closed by
its last two bytes, the first ones after the opening that close it. -/
structure StandsIn (source : String) (c : DocComment) : Prop where
  slice : Text.slice? source c.span = some c.text
  line : ∃ before, Text.slice? source ⟨0, c.span.start⟩ = some before ∧
    c.line = 1 + before.toList.count '\n'
  opens : "/**".toList <+: c.text.toList
  notEmpty : ¬ "/**/".toList <+: c.text.toList
  size : 5 ≤ c.text.utf8ByteSize
  closes : ∀ k, 3 ≤ k → (OccursAt "*/" c.text.toList k ↔ k + 2 = c.text.utf8ByteSize)

theorem standsIn_of_startOf {source : String} {before : List Char}
    (split : source.toList = before ++ (text ++ rest))
    (start : startOf (text ++ rest) = .comment text) :
    StandsIn source ⟨String.ofList text, ⟨width before, width before + width text⟩,
      1 + before.count '\n'⟩ := by
  obtain ⟨notEmpty, body, rfl, closed⟩ := startOf_eq_comment_append start
  have size : (String.ofList ('/' :: '*' :: '*' :: body)).utf8ByteSize = 3 + width body := by
    rw [utf8ByteSize_eq_width, String.toList_ofList]
    exact width_append ['/', '*', '*'] body
  constructor
  case slice => exact slice?_eq_some_iff.2 ⟨before, rest, by simp [split], by simp⟩
  case line =>
    have holds : Span.Holds ⟨0, width before⟩ source (String.ofList before) :=
      ⟨[], _, by simpa using split, by simp⟩
    exact ⟨String.ofList before, slice?_eq_some_iff.2 holds, by simp⟩
  case opens => exact ⟨body, by simp⟩
  case notEmpty =>
    intro empty
    have text := String.toList_ofList (l := '/' :: '*' :: '*' :: body)
    exact notEmpty ((text ▸ empty).trans (List.prefix_append _ rest))
  case size =>
    obtain ⟨front, rfl⟩ := closing?_eq_append closed
    have two : width ['*', '/'] = 2 := rfl
    rw [size, width_append, two]
    omega
  case closes =>
    intro k after
    obtain ⟨k, rfl⟩ := Nat.exists_eq_add_of_le after
    rw [size, String.toList_ofList, Nat.add_assoc, Nat.add_left_cancel_iff,
      ← occursAt_closing?_iff closed k]
    exact occursAt_append_iff ['/', '*', '*'] k

namespace Parted

variable {source : String} {ps before after : List Part} {c : DocComment} {i : Nat}

theorem mem_findAll_iff (h : Parted source.toList ps) :
    c ∈ findAll source ↔ ∃ before text after, ps = before ++ .comment text :: after ∧
      c = ⟨String.ofList text, ⟨width (Part.charsOf before),
        width (Part.charsOf before) + width text⟩, 1 + (Part.charsOf before).count '\n'⟩ := by
  rw [findAll, h.mem_findFrom_iff]
  simp only [Nat.zero_add]

theorem standsIn (h : Parted source.toList ps) (found : c ∈ findAll source) :
    c.StandsIn source := by
  obtain ⟨before, text, after, rfl, rfl⟩ := h.mem_findAll_iff.1 found
  obtain ⟨rest, split, start, -⟩ := h.split
  exact standsIn_of_startOf split start

theorem emptyComment_apart (h : Parted source.toList (before ++ .emptyComment :: after))
    (found : c ∈ findAll source) :
    width (Part.charsOf before) + 4 ≤ c.span.start ∨ c.span.stop ≤ width (Part.charsOf before) := by
  obtain ⟨before', text, after', same, rfl⟩ := h.mem_findAll_iff.1 found
  have four : width Part.emptyComment.chars = 4 := rfl
  rcases Part.before_or_after same nofun with ⟨between, rfl, -⟩ | ⟨between, rfl, -⟩
  · left
    simp only [Part.charsOf_append, Part.charsOf_cons, width_append, four]
    omega
  · right
    simp only [Part.charsOf_append, Part.charsOf_cons, width_append]
    exact Nat.add_le_add_left (Nat.le_add_right _ _) _

theorem not_occursAt_text {d : Char} (h : Parted cs (before ++ .text d :: after))
    (first : width (Part.charsOf before) ≤ i)
    (last : i < width (Part.charsOf before) + width (Part.text d).chars) :
    ¬ OccursAt "/**" cs i := by
  obtain ⟨rest, rfl, start, -⟩ := h.split
  obtain ⟨k, rfl⟩ := Nat.exists_eq_add_of_le first
  rw [occursAt_append_iff]
  intro occurs
  rcases occurs.cons_cases with opens | ⟨k, rfl, -⟩
  · exact startOf_eq_other start opens
  · simp only [Part.chars, width_cons, width_nil] at last
    omega

theorem unclosed_last (h : Parted source.toList (before ++ .unclosed text :: after)) :
    OccursAt "/**" source.toList (width (Part.charsOf before)) ∧
    ¬ OccursAt "/**/" source.toList (width (Part.charsOf before)) ∧
    (∀ k, width (Part.charsOf before) + 3 ≤ k → ¬ OccursAt "*/" source.toList k) ∧
    ∀ c ∈ findAll source, c.span.stop ≤ width (Part.charsOf before) := by
  obtain ⟨rest, split, start, last, parted⟩ := h.split
  obtain rfl := last rfl
  obtain ⟨notEmpty, body, same, open_⟩ := startOf_eq_unclosed start
  have here {pattern : String} (k : Nat) :
      OccursAt pattern source.toList (width (Part.charsOf before) + k) ↔
        OccursAt pattern ('/' :: '*' :: '*' :: body) k := by
    rw [split, same, occursAt_append_iff]
  refine ⟨?_, ?_, ?_, ?_⟩
  · exact (here 0).2 (occursAt_zero_iff.2 ⟨body, rfl⟩)
  · rw [← Nat.add_zero (width _), here, occursAt_zero_iff, ← same]
    exact notEmpty
  · intro k after
    obtain ⟨k, rfl⟩ := Nat.exists_eq_add_of_le after
    rw [Nat.add_assoc, here]
    exact fun occurs => closing?_eq_none open_ k ((occursAt_append_iff ['/', '*', '*'] k).1 occurs)
  · intro c found
    obtain ⟨before', text', after', same, rfl⟩ := h.mem_findAll_iff.1 found
    rcases Part.before_or_after same nofun with ⟨between, -, none⟩ | ⟨between, rfl, -⟩
    · simp at none
    · simp only [Part.charsOf_append, Part.charsOf_cons, width_append]
      exact Nat.add_le_add_left (Nat.le_add_right _ _) _

end Parted

/-- The search finds doc comments only, one after the other, each as it stands in the source.
Whatever looks like an opening stands in one of them, in an empty comment that the search passed, or
from an opening on that is never closed, behind which nothing is found. -/
theorem findAll_covers_openings (source : String) :
    (findAll source).Pairwise (fun c d => c.span.stop ≤ d.span.start) ∧
    (∀ c ∈ findAll source, c.StandsIn source) ∧
    ∃ ps, Parted source.toList ps ∧
      (∀ j, Part.At ps .emptyComment j → OccursAt "/**/" source.toList j ∧
        ∀ c ∈ findAll source, j + 4 ≤ c.span.start ∨ c.span.stop ≤ j) ∧
      ∀ i, OccursAt "/**" source.toList i →
        (∃ c ∈ findAll source, c.span.start ≤ i ∧ i < c.span.stop) ∨
        (∃ j, Part.At ps .emptyComment j ∧ j ≤ i ∧ i < j + 4) ∨
        ∃ j ≤ i, OccursAt "/**" source.toList j ∧ ¬ OccursAt "/**/" source.toList j ∧
          (∀ k, j + 3 ≤ k → ¬ OccursAt "*/" source.toList k) ∧
          ∀ c ∈ findAll source, c.span.stop ≤ j := by
  obtain ⟨ps, parted⟩ := exists_parted source.toList
  refine ⟨parted.pairwise_findFrom, fun c => parted.standsIn, ps, parted, ?_, ?_⟩
  · rintro _ ⟨before, after, rfl, rfl⟩
    obtain ⟨rest, split, -⟩ := parted.split
    exact ⟨⟨_, rest, split, rfl⟩, fun c => parted.emptyComment_apart⟩
  · intro i occurs
    have fits : i + 3 ≤ width source.toList := occurs.add_width_le
    have inside : i < width (Part.charsOf ps) := by
      rw [parted.charsOf_eq]
      omega
    obtain ⟨before, x, after, rfl, first, last⟩ := Part.exists_covering inside
    cases x with
    | text d => exact absurd occurs (parted.not_occursAt_text first last)
    | emptyComment => exact .inr (.inl ⟨_, ⟨before, after, rfl, rfl⟩, first, last⟩)
    | comment text =>
      exact .inl ⟨_, parted.mem_findAll_iff.2 ⟨before, text, after, rfl, rfl⟩, first, last⟩
    | unclosed text => exact .inr (.inr ⟨_, first, parted.unclosed_last⟩)

example : findAll "/**/**/\n/***/ /** a" = [⟨"/***/", ⟨8, 13⟩, 2⟩] := by decide

end DocComment
end DocMarks
