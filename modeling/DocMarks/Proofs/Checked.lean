import DocMarks.Proofs.Diagnostics
import DocMarks.Proofs.Value.Built

namespace DocMarks

def Text.slice? (body : String) (s : Span) : Option String :=
  if s.start ≤ s.stop ∧ String.Pos.Raw.IsValid body ⟨s.start⟩ ∧
      String.Pos.Raw.IsValid body ⟨s.stop⟩ then
    some (String.Pos.Raw.extract body ⟨s.start⟩ ⟨s.stop⟩)
  else none

def Count.increment? (n : Nat) : Option Nat :=
  if n + 1 < UInt64.size then some (n + 1) else none

def Count.decrement? : Nat → Option Nat
  | 0 => none
  | n + 1 => some n

def unquote? (text : String) : Option String := do
  let last ← Count.decrement? text.utf8ByteSize
  let inner ← Text.slice? text ⟨1, last⟩
  if text.toList.head? = some '"' ∧ text.toList.getLast? = some '"' then
    return String.ofList (Text.Quoted.undouble (Text.Quoted.unwrap (Text.splitOn '\n' inner.toList)))
  else none

/-- An integer key moves the next index to the number after it, or to the end of the range. -/
def Table.insert? (t : Table) (k : Key) (v : Value) : Option Table :=
  match k with
  | .int i => do
    let next ← Numeral.fit? (min (i.toInt + 1) Int64.maxValue.toInt)
    return ⟨Entries.put t.entries k v, max t.nextIndex next⟩
  | .string _ => some ⟨Entries.put t.entries k v, t.nextIndex⟩

namespace Region

def opensAt? (body : String) (position : Nat) : Option Bool := do
  let before ← Text.slice? body ⟨0, position⟩
  return before.toList.getLast?.all opens

def startFrom? (body : String) (position : Nat) : List Char → Option (Option Nat)
  | [] => some none
  | c :: cs => do
    let opened ← opensAt? body position
    if c == '@' && opened then return some position
    else startFrom? body (position + c.utf8Size) cs

def spanOf? (body : String) : Option (Option Span) := do
  match ← startFrom? body 0 body.toList with
  | none => return none
  | some start =>
    let rest ← Text.slice? body ⟨start, body.utf8ByteSize⟩
    return some ⟨start, start + Text.width (Text.trimEnd isDecoration rest.toList)⟩

end Region

variable {body : String}

theorem Text.utf8Len_eq_width (cs : List Char) : String.utf8Len cs = width cs := by
  induction cs with
  | nil => rfl
  | cons c cs ih => rw [String.utf8Len_cons, ih, width_cons, Nat.add_comm]

theorem Text.utf8ByteSize_eq_width (s : String) : s.utf8ByteSize = width s.toList := by
  rw [← utf8Len_eq_width, ← String.utf8ByteSize_ofList, String.ofList_toList]

theorem Text.isValid_iff {position : Nat} :
    String.Pos.Raw.IsValid body ⟨position⟩ ↔
      ∃ before after, body.toList = before ++ after ∧ position = width before := by
  rw [String.Pos.Raw.isValid_iff_exists_append]
  constructor
  · rintro ⟨before, after, rfl, h⟩
    refine ⟨before.toList, after.toList, String.toList_append, ?_⟩
    rw [← utf8ByteSize_eq_width]
    exact congrArg String.Pos.Raw.byteIdx h
  · rintro ⟨before, after, text, rfl⟩
    refine ⟨String.ofList before, String.ofList after, ?_, ?_⟩
    · rw [← String.ofList_append, ← text, String.ofList_toList]
    · rw [String.rawEndPos_ofList, utf8Len_eq_width]

theorem Text.eq_nil_of_width {cs : List Char} (h : width cs = 0) : cs = [] := by
  cases cs with
  | nil => rfl
  | cons c cs =>
    have := c.utf8Size_pos
    rw [width_cons] at h
    omega

theorem Text.exists_append_of_width_le {cs ds cs' ds' : List Char} (h : cs ++ ds = cs' ++ ds')
    (le : width cs ≤ width cs') : ∃ between, cs' = cs ++ between ∧ ds = between ++ ds' := by
  rcases List.append_eq_append_iff.1 h with ⟨between, rfl, rfl⟩ | ⟨between, rfl, rfl⟩
  · exact ⟨between, rfl, rfl⟩
  · rw [width_append] at le
    obtain rfl : between = [] := eq_nil_of_width (by omega)
    exact ⟨[], by simp, by simp⟩

theorem Text.extract_eq {before part after : List Char}
    (h : body.toList = before ++ part ++ after) :
    String.Pos.Raw.extract body ⟨width before⟩ ⟨width before + width part⟩ = String.ofList part := by
  have cut := String.extract_of_valid before part after
  rwa [← h, String.ofList_toList, utf8Len_eq_width, utf8Len_eq_width] at cut

theorem Text.slice?_eq_some_iff {s : Span} {part : String} :
    slice? body s = some part ↔ s.Holds body part := by
  rw [slice?, Option.ite_none_right_eq_some]
  constructor
  · rintro ⟨⟨le, start, stop⟩, cut⟩
    obtain ⟨before, after, text, first⟩ := isValid_iff.1 start
    obtain ⟨front, rest, text', last⟩ := isValid_iff.1 stop
    obtain ⟨inside, rfl, rfl⟩ := exists_append_of_width_le (text.symm.trans text') (by omega)
    have hs : s = ⟨width before, width before + width inside⟩ := by
      rw [width_append] at last
      cases s
      simp_all
    rw [hs, extract_eq text', Option.some.injEq] at cut
    rw [← cut]
    refine ⟨before, rest, ?_, ?_⟩
    · rw [text', String.toList_ofList]
    · rw [hs, String.toList_ofList]
  · rintro ⟨before, after, text, rfl⟩
    refine ⟨⟨Nat.le_add_right _ _, ?_, ?_⟩, ?_⟩
    · exact isValid_iff.2 ⟨before, part.toList ++ after, by rw [text, List.append_assoc], rfl⟩
    · exact isValid_iff.2 ⟨before ++ part.toList, after, text, by rw [width_append]⟩
    · rw [extract_eq text, String.ofList_toList]

example : Text.slice? "é@" ⟨1, 2⟩ = none := by decide

namespace Region

theorem opensAt?_eq {before after : List Char} (h : body.toList = before ++ after) :
    opensAt? body (Text.width before) = some (before.getLast?.all opens) := by
  have holds : Span.Holds ⟨0, Text.width before⟩ body (String.ofList before) :=
    ⟨[], after, by simpa using h, by simp⟩
  rw [opensAt?, Text.slice?_eq_some_iff.2 holds]
  simp

theorem startFrom?_eq {before after : List Char} (h : body.toList = before ++ after) :
    startFrom? body (Text.width before) after =
      some ((openFrom? (Text.width before) (before.getLast?.all opens) after).map start) := by
  induction after generalizing before with
  | nil => rfl
  | cons c after ih =>
    rw [startFrom?, opensAt?_eq h, openFrom?]
    simp only [Option.bind_eq_bind, Option.bind_some]
    split
    case isTrue => rfl
    case isFalse =>
      have rest := @ih (before ++ [c]) (by simpa using h)
      simpa using rest

theorem span_start (r : Region) : r.span.start = r.start := rfl

theorem holds_span {r : Region} (h : ofBody? body = some r) :
    r.span.Holds body (String.ofList r.text) := by
  obtain ⟨before, after, text, start⟩ := ofBody?_eq h
  refine ⟨before, after, by simpa using text, ?_⟩
  rw [span, start, String.toList_ofList]

theorem spanOf?_eq (body : String) : spanOf? body = some ((ofBody? body).map span) := by
  have search := @startFrom?_eq body [] body.toList rfl
  simp only [Text.width_nil, List.getLast?_nil, Option.all_none] at search
  rw [spanOf?, search, ofBody?, ofChars?]
  cases open? : openFrom? 0 true body.toList with
  | none => rfl
  | some r =>
    obtain ⟨before, text, start⟩ := openFrom?_eq open?
    have holds : Span.Holds ⟨r.start, body.utf8ByteSize⟩ body (String.ofList r.text) := by
      refine ⟨before, [], by simpa using text, ?_⟩
      rw [Text.utf8ByteSize_eq_width, text, start]
      simp
    simp [Text.slice?_eq_some_iff.2 holds, span]

end Region

theorem Token.closing?_eq_append {cs ds : List Char} (h : closing? cs = some ds) :
    ∃ inner, ds = inner ++ ['"'] := by
  induction cs using closing?.induct generalizing ds with
  | case1 => cases h
  | case2 cs ih =>
    rw [closing?] at h
    obtain ⟨es, hes, rfl⟩ := Option.map_eq_some_iff.1 h
    obtain ⟨inner, rfl⟩ := ih hes
    exact ⟨'"' :: '"' :: inner, rfl⟩
  | case3 cs _ =>
    rw [closing?] at h
    · cases h
      exact ⟨[], rfl⟩
    · assumption
  | case4 c cs _ quote ih =>
    rw [closing?] at h
    · obtain ⟨es, hes, rfl⟩ := Option.map_eq_some_iff.1 h
      obtain ⟨inner, rfl⟩ := ih hes
      exact ⟨c :: inner, rfl⟩
    · assumption
    · assumption

theorem Token.toList_of_string {p : Nat} {cs : List Char} {t : Token} (h : t ∈ scan p cs)
    (string : t.kind = .string) : ∃ inner, t.text.toList = '"' :: (inner ++ ['"']) := by
  obtain ⟨_, _, -, -, ⟨finish, -⟩ | ⟨c, ds, text, -, lexed⟩⟩ := mem_scan h
  · rw [string] at finish
    cases finish
  · rw [string] at lexed
    obtain ⟨rfl, closed⟩ := lexeme_eq_string_iff.1 lexed
    obtain ⟨inner, rfl⟩ := closing?_eq_append closed
    exact ⟨inner, text⟩

theorem unquote?_eq {text : String} {inner : List Char}
    (h : text.toList = '"' :: (inner ++ ['"'])) : unquote? text = some (unquote text) := by
  have size : text.utf8ByteSize = (1 + Text.width inner) + 1 := by
    rw [Text.utf8ByteSize_eq_width, h, Text.width_cons, Text.width_append, Nat.add_assoc]
    rfl
  have holds : Span.Holds ⟨1, 1 + Text.width inner⟩ text (String.ofList inner) :=
    ⟨['"'], ['"'], by simpa using h, by simp [Text.width]; decide⟩
  have last : text.toList.getLast? = some '"' := by
    rw [h, ← List.cons_append, List.getLast?_concat]
  rw [unquote?, size, Count.decrement?]
  simp only [Option.bind_eq_bind, Option.bind_some, Text.slice?_eq_some_iff.2 holds]
  rw [if_pos ⟨by rw [h]; rfl, last⟩]
  simp [h, unquote, Text.Quoted.decode]

example : unquote? "\"" = none := by decide

theorem Token.unquote?_of_mem_scan {p : Nat} {cs : List Char} {t : Token} (h : t ∈ scan p cs)
    (string : t.kind = .string) : unquote? t.text = some (unquote t.text) := by
  obtain ⟨inner, text⟩ := toList_of_string h string
  exact unquote?_eq text

theorem Table.insert?_eq (t : Table) (k : Key) (v : Value) :
    t.insert? k v = some (t.insert k v) := by
  cases k with
  | string s => rfl
  | int i =>
    have fits : Numeral.fit? (min (i.toInt + 1) Int64.maxValue.toInt) = some (after i) := by
      rw [← toInt_after, Numeral.fit?, if_pos ⟨(after i).minValue_le_toInt, (after i).toInt_le⟩,
        Int64.ofInt_toInt]
    rw [insert?, fits]
    rfl

end DocMarks
