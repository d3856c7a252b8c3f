import DocMarks.Proofs.Token.Cover
import DocMarks.Proofs.Numeral
import DocMarks.Proofs.Token.Pattern

/-! Maximal munch. The lexer reads the front of a text once and gives nothing back, yet it cuts off
what the patterns say: the longest text that one of them has there. -/

namespace DocMarks.Token

open Pattern

variable {c : Char} {cs s d f e w rest : List Char} {kind : Kind}

theorem signOf_append (hs : s ∈ maybe sign) (free : ∀ c ∈ rest.head?, c ≠ '+' ∧ c ≠ '-') :
    signOf (s ++ rest) = s := by
  rcases mem_maybe_iff.1 hs with rfl | ⟨c, hc, rfl⟩
  · cases rest with
    | nil => rfl
    | cons c rest =>
      have := free c rfl
      simp [signOf, this]
  · have sign : c = '+' ∨ c = '-' := by simpa using hc
    rw [List.singleton_append, signOf, if_pos sign]

theorem digitsOf_append (all : ∀ c ∈ d, c.isDigit) (rest : List Char) :
    digitsOf (d ++ rest) = d ++ digitsOf rest := List.takeWhile_append_of_pos all

theorem fractionOf_append (h : f ∈ fraction) (rest : List Char) :
    fractionOf (f ++ rest) = f ++ digitsOf rest := by
  obtain ⟨c, d, rfl, point, hd⟩ := mem_one_mul_iff.1 h
  obtain ⟨nonempty, all⟩ := mem_digits_iff.1 hd
  rw [eq_of_beq point, List.cons_append, fractionOf, digitsOf_append all,
    if_neg (by simp [nonempty])]
  rfl

theorem ne_sign_of_isDigit (h : c.isDigit) : c ≠ '+' ∧ c ≠ '-' := by
  constructor
  · rintro rfl
    exact absurd h (by decide)
  · rintro rfl
    exact absurd h (by decide)

theorem ne_sign_of_mem_digits (h : d ∈ digits) (rest : List Char) :
    ∀ c ∈ (d ++ rest).head?, c ≠ '+' ∧ c ≠ '-' := by
  obtain ⟨c, d, rfl, hc, -⟩ := mem_one_mul_iff.1 h
  rintro _ ⟨⟩
  exact ne_sign_of_isDigit hc

theorem exponentOf_append (h : e ∈ exponent) (rest : List Char) :
    exponentOf (e ++ rest) = e ++ digitsOf rest := by
  obtain ⟨c, v, rfl, mark, hv⟩ := mem_one_mul_iff.1 h
  obtain ⟨s, hs, d, hd, rfl⟩ := Language.mem_mul.1 hv
  obtain ⟨nonempty, all⟩ := mem_digits_iff.1 hd
  rw [List.cons_append, List.append_assoc, exponentOf,
    signOf_append hs (ne_sign_of_mem_digits hd rest)]
  simp only [List.drop_left, digitsOf_append all]
  rw [if_pos ⟨by simpa using mark, by simp [nonempty]⟩]
  simp

theorem number?_append (hs : s ∈ maybe sign) (all : ∀ c ∈ d, c.isDigit) (stop : digitsOf rest = [])
    (free : ∀ c ∈ (d ++ rest).head?, c ≠ '+' ∧ c ≠ '-') :
    number? (s ++ (d ++ rest)) =
      if d = [] then if fractionOf rest = [] then none else some (.float, s ++ fractionOf rest)
      else
        let exponent := exponentOf (rest.drop (fractionOf rest).length)
        some (if fractionOf rest = [] ∧ exponent = [] then .integer else .float,
          s ++ d ++ fractionOf rest ++ exponent) := by
  have whole : digitsOf (d ++ rest) = d := by rw [digitsOf_append all, stop, List.append_nil]
  rw [number?]
  simp only [signOf_append hs free, List.drop_left, whole]

theorem number?_of_mem_integer (h : w ∈ Pattern.integer) (rest : List Char) :
    ∃ kind text, number? (w ++ rest) = some (kind, text) ∧ w <+: text := by
  obtain ⟨s, hs, d, hd, rfl⟩ := Language.mem_mul.1 h
  obtain ⟨nonempty, all⟩ := mem_digits_iff.1 hd
  rw [List.append_assoc, number?]
  simp only [signOf_append hs (ne_sign_of_mem_digits hd rest), List.drop_left, digitsOf_append all]
  rw [if_neg (by simp [nonempty])]
  refine ⟨_, _, rfl, ?_⟩
  simp only [List.append_assoc]
  exact (List.prefix_append_right_inj s).2 (List.prefix_append ..)

theorem fraction_stops (h : f ∈ fraction) (rest : List Char) :
    digitsOf (f ++ rest) = [] ∧ ∀ c ∈ (f ++ rest).head?, c ≠ '+' ∧ c ≠ '-' := by
  obtain ⟨c, d, rfl, point, hd⟩ := mem_one_mul_iff.1 h
  rw [eq_of_beq point]
  refine ⟨rfl, ?_⟩
  rintro _ ⟨⟩
  decide

theorem exponent_stops (h : e ∈ exponent) (rest : List Char) :
    digitsOf (e ++ rest) = [] ∧ fractionOf (e ++ rest) = [] := by
  obtain ⟨c, v, rfl, mark, -⟩ := mem_one_mul_iff.1 h
  have mark : c = 'e' ∨ c = 'E' := by simpa using mark
  rcases mark with rfl | rfl
  · exact ⟨rfl, rfl⟩
  · exact ⟨rfl, rfl⟩

theorem number?_of_mem_pointed (h : w ∈ pointed) (rest : List Char) :
    ∃ text, number? (w ++ rest) = some (.float, text) ∧ w <+: text := by
  obtain ⟨s, hs, v, hv, rfl⟩ := Language.mem_mul.1 h
  obtain ⟨d, hd, f, hf, rfl⟩ := Language.mem_mul.1 hv
  obtain ⟨stop, free⟩ := fraction_stops hf rest
  have point := fractionOf_append hf rest
  have some : f ++ digitsOf rest ≠ [] := by
    obtain ⟨c, v, rfl, -⟩ := mem_one_mul_iff.1 hf
    exact List.cons_ne_nil _ _
  rw [List.append_assoc, List.append_assoc]
  by_cases empty : d = []
  · subst empty
    rw [number?_append hs (by simp) stop free, if_pos rfl, point, if_neg some]
    exact ⟨_, rfl, (List.prefix_append_right_inj s).2 (List.prefix_append ..)⟩
  · have digits := mem_digits_iff.2 ⟨empty, mem_kstar_one_iff.1 hd⟩
    rw [number?_append hs (mem_kstar_one_iff.1 hd) stop (ne_sign_of_mem_digits digits _),
      if_neg empty, point]
    simp only [some, false_and, if_false, List.append_assoc]
    exact ⟨_, rfl, (List.prefix_append_right_inj s).2
      ((List.prefix_append_right_inj d).2 (List.prefix_append ..))⟩

theorem number?_of_mem_scientific (h : w ∈ scientific) (rest : List Char) :
    ∃ text, number? (w ++ rest) = some (.float, text) ∧ w <+: text := by
  obtain ⟨s, hs, v, hv, rfl⟩ := Language.mem_mul.1 h
  obtain ⟨d, hd, u, hu, rfl⟩ := Language.mem_mul.1 hv
  obtain ⟨f, hf, e, he, rfl⟩ := Language.mem_mul.1 hu
  obtain ⟨nonempty, all⟩ := mem_digits_iff.1 hd
  obtain ⟨stop, noPoint⟩ := exponent_stops he rest
  have parts : digitsOf (f ++ (e ++ rest)) = [] ∧ fractionOf (f ++ (e ++ rest)) = f := by
    rcases mem_maybe_iff.1 hf with rfl | hf
    · exact ⟨stop, noPoint⟩
    · rw [fractionOf_append hf, stop, List.append_nil]
      exact ⟨(fraction_stops hf _).1, rfl⟩
  have some : e ++ digitsOf rest ≠ [] := by
    obtain ⟨c, v, rfl, -⟩ := mem_one_mul_iff.1 he
    exact List.cons_ne_nil _ _
  simp only [List.append_assoc]
  rw [number?_append hs all parts.1 (ne_sign_of_mem_digits hd _), if_neg nonempty, parts.2,
    List.drop_left, exponentOf_append he]
  simp only [some, and_false, if_false, List.append_assoc]
  exact ⟨_, rfl, (List.prefix_append_right_inj s).2 ((List.prefix_append_right_inj d).2
    ((List.prefix_append_right_inj f).2 (List.prefix_append ..)))⟩

theorem number?_of_mem_float (h : w ∈ Kind.float.pattern) (rest : List Char) :
    ∃ text, number? (w ++ rest) = some (.float, text) ∧ w <+: text := by
  cases h with
  | inl h => exact number?_of_mem_pointed h rest
  | inr h => exact number?_of_mem_scientific h rest

theorem number?_integer (h : w ∈ Pattern.integer) : number? w = some (.integer, w) := by
  obtain ⟨s, hs, d, hd, rfl⟩ := Language.mem_mul.1 h
  obtain ⟨nonempty, all⟩ := mem_digits_iff.1 hd
  have number := number?_append hs all rfl (ne_sign_of_mem_digits hd [])
  rw [List.append_nil, if_neg nonempty] at number
  rw [number]
  simp [fractionOf, exponentOf]

theorem number?_float (h : w ∈ Kind.float.pattern) : number? w = some (.float, w) := by
  obtain ⟨text, number, begins⟩ := number?_of_mem_float h []
  rw [List.append_nil] at number
  rw [number, begins.eq_of_length_le (isPrefix_number? number).1.length_le]

theorem number?_of_isNameStart (h : isNameStart c) (cs : List Char) :
    number? (c :: cs) = none := by
  have digit : c.isDigit = false := by
    by_contra digit
    simp [(starts_number_of_isDigit (by simpa using digit)).2.2] at h
  have other : c ≠ '+' ∧ c ≠ '-' ∧ c ≠ '.' := by
    refine ⟨?_, ?_, ?_⟩ <;> rintro rfl <;> exact absurd h (by decide)
  have point : fractionOf (c :: cs) = [] := by
    rw [fractionOf]
    simp [other]
  simp [number?, signOf, digitsOf, other, digit, point]

theorem lexeme_of_number? {number : Kind × List Char} (h : number? (c :: cs) = some number) :
    lexeme c cs = number := by
  apply lexeme_number ?_ ?_ h
  · rintro rfl
    simp [number?, signOf, digitsOf, fractionOf] at h
  · rw [← Bool.not_eq_true]
    intro word
    simp [number?_of_isNameStart word] at h

theorem closing?_of_mem_quotedBody {body : List Char} (h : body ∈ quotedBody)
    (single : rest.head? ≠ some '"') : closing? (body ++ '"' :: rest) = some (body ++ ['"']) := by
  obtain ⟨parts, rfl, all⟩ := Language.mem_kstar.1 h
  clear h
  induction parts with
  | nil => exact closing?_double [] single
  | cons v parts ih =>
    rw [List.forall_mem_cons] at all
    have ih := ih all.2
    rw [List.flatten_cons, List.append_assoc]
    rcases all.1 with ⟨c, hc, rfl⟩ | pair
    · rw [List.singleton_append, closing?_cons_of_ne _ (by simpa using hc), ih]
      rfl
    · obtain ⟨_, ⟨c, hc, rfl⟩, _, ⟨d, hd, rfl⟩, rfl⟩ := Language.mem_mul.1 pair
      rw [eq_of_beq hc, eq_of_beq hd, List.singleton_append, List.cons_append,
        List.singleton_append, closing?, ih]
      rfl

theorem quotedBody_cons {body : List Char} (hc : c ≠ '"') (h : body ∈ quotedBody) :
    c :: body ∈ quotedBody := by
  obtain ⟨parts, rfl, all⟩ := Language.mem_kstar.1 h
  exact Language.mem_kstar.2 ⟨[c] :: parts, rfl,
    List.forall_mem_cons.2 ⟨.inl ⟨c, by simpa using hc, rfl⟩, all⟩⟩

theorem quotedBody_pair {body : List Char} (h : body ∈ quotedBody) :
    '"' :: '"' :: body ∈ quotedBody := by
  obtain ⟨parts, rfl, all⟩ := Language.mem_kstar.1 h
  have quote : ['"'] ∈ one (· == '"') := ⟨'"', rfl, rfl⟩
  exact Language.mem_kstar.2 ⟨['"', '"'] :: parts, rfl,
    List.forall_mem_cons.2 ⟨.inr (Language.append_mem_mul quote quote), all⟩⟩

theorem closing?_eq_some_iff {text : List Char} :
    closing? cs = some text ↔ ∃ body ∈ quotedBody, ∃ rest,
      cs = body ++ '"' :: rest ∧ rest.head? ≠ some '"' ∧ text = body ++ ['"'] := by
  constructor
  · intro h
    induction cs using closing?.induct generalizing text with
    | case1 => cases h
    | case2 cs ih =>
      rw [closing?] at h
      obtain ⟨ds, hds, rfl⟩ := Option.map_eq_some_iff.1 h
      obtain ⟨body, hbody, rest, rfl, single, rfl⟩ := ih hds
      exact ⟨_, quotedBody_pair hbody, rest, rfl, single, rfl⟩
    | case3 cs single =>
      rw [closing?] at h
      · cases h
        refine ⟨[], Language.nil_mem_kstar _, cs, rfl, ?_, rfl⟩
        intro quote
        obtain ⟨ds, rfl⟩ := List.head?_eq_some_iff.1 quote
        exact single ds rfl
      · assumption
    | case4 c cs _ quote ih =>
      rw [closing?] at h
      · obtain ⟨ds, hds, rfl⟩ := Option.map_eq_some_iff.1 h
        obtain ⟨body, hbody, rest, rfl, single, rfl⟩ := ih hds
        exact ⟨_, quotedBody_cons quote hbody, rest, rfl, single, rfl⟩
      · assumption
      · assumption
  · rintro ⟨body, hbody, rest, rfl, single, rfl⟩
    exact closing?_of_mem_quotedBody hbody single

theorem lexeme_self (h : c :: cs ∈ kind.pattern) : lexeme c cs = (kind, c :: cs) := by
  rcases mem_pattern_cases h with ⟨hw, rfl⟩ | ⟨rfl, h⟩ | ⟨rfl, h⟩ | ⟨d, mark, h⟩ |
    ⟨rfl, body, hbody, h⟩
  · obtain ⟨start, all⟩ := mem_word_iff.1 hw
    have taken : cs.takeWhile isNameRest = cs := List.takeWhile_eq_self_iff.2 all
    rw [lexeme_word start, taken]
  · exact lexeme_of_number? (number?_integer h)
  · exact lexeme_of_number? (number?_float h)
  · cases h
    exact (lexeme_mark mark []).2
  · cases h
    exact lexeme_eq_string_iff.2 ⟨rfl, closing?_of_mem_quotedBody hbody (by simp)⟩

theorem ne_nil_of_mem_pattern (h : w ∈ kind.pattern) : w ≠ [] := by
  rintro rfl
  rcases mem_pattern_cases h with ⟨h, -⟩ | ⟨-, h⟩ | ⟨-, h⟩ | ⟨_, -, h⟩ | ⟨-, _, -, h⟩
  · obtain ⟨_, _, h, -⟩ := mem_one_mul_iff.1 h
    cases h
  · exact absurd (number?_integer h) (by decide)
  · exact absurd (number?_float h) (by decide)
  · cases h
  · cases h

theorem kind_unique {kind' : Kind} (h : w ∈ kind.pattern) (h' : w ∈ kind'.pattern) :
    kind = kind' := by
  obtain ⟨c, cs, rfl⟩ := List.exists_cons_of_ne_nil (ne_nil_of_mem_pattern h)
  exact congrArg Prod.fst ((lexeme_self h).symm.trans (lexeme_self h'))

theorem mem_pattern_of_lexeme (quote : c ≠ '"') (h : lexeme c cs = (kind, w))
    (token : kind ≠ .stray) : w ∈ kind.pattern := by
  rcases lexeme_cases c cs with ⟨hc, -⟩ | ⟨hc, -⟩ | ⟨start, h'⟩ | ⟨_, _, number, h'⟩ | h'
  · exact absurd hc quote
  · exact absurd hc quote
  · cases h.symm.trans h'
    exact mem_pattern_wordKind (mem_word_iff.2 ⟨start, List.all_eq_true.1 List.all_takeWhile⟩)
  · cases h.symm.trans h'
    exact number?_mem number
  · cases h.symm.trans h'
    cases mark : punctuation? c with
    | none => simp [mark] at token
    | some kind => exact mark_mem mark

theorem length_le_lexeme (quote : c ≠ '"') (begins : w <+: c :: cs) (h : w ∈ kind.pattern) :
    (lexeme c cs).1 ≠ .stray ∧ w.length ≤ (lexeme c cs).2.length := by
  obtain ⟨rest, text⟩ := begins
  rcases mem_pattern_cases h with ⟨hw, -⟩ | ⟨-, h⟩ | ⟨-, h⟩ | ⟨d, mark, rfl⟩ | ⟨-, body, -, rfl⟩
  · obtain ⟨d, v, rfl, start, all⟩ := mem_one_mul_iff.1 hw
    rw [List.cons_append, List.cons.injEq] at text
    obtain ⟨rfl, rfl⟩ := text
    rw [lexeme_word start, List.takeWhile_append_of_pos (mem_kstar_one_iff.1 all)]
    refine ⟨?_, by simp⟩
    rcases wordKind_cases (d :: (v ++ rest.takeWhile isNameRest)) with h | h | h | h <;> simp [h]
  · obtain ⟨kind, _, number, longer⟩ := number?_of_mem_integer h rest
    rw [text] at number
    rw [lexeme_of_number? number]
    refine ⟨?_, longer.length_le⟩
    rcases number?_kind number with rfl | rfl <;> simp
  · obtain ⟨_, number, longer⟩ := number?_of_mem_float h rest
    rw [text] at number
    rw [lexeme_of_number? number]
    exact ⟨by simp, longer.length_le⟩
  · rw [List.singleton_append, List.cons.injEq] at text
    obtain ⟨rfl, rfl⟩ := text
    rw [(lexeme_mark mark rest).2]
    refine ⟨?_, Nat.le_refl 1⟩
    rintro rfl
    cases h
  · cases text
    exact absurd rfl quote

/-- What the patterns cut off the front of a text. A quoted text goes on to the first quote that is
not the first of a pair, and spoils all the text where there is none. Elsewhere it is the longest
text that a pattern has there, or a single character where none has any. -/
inductive Munch (text : List Char) : Kind → List Char → Prop
  | quoted {body rest : List Char} : text = '"' :: (body ++ '"' :: rest) → body ∈ quotedBody →
      rest.head? ≠ some '"' → Munch text .string ('"' :: (body ++ ['"']))
  | unclosed : text.head? = some '"' →
      (∀ body rest, text = '"' :: (body ++ '"' :: rest) → body ∈ quotedBody →
        rest.head? = some '"') → Munch text .stray text
  | longest {kind : Kind} {w : List Char} : text.head? ≠ some '"' → w <+: text → w ∈ kind.pattern →
      (∀ (other : Kind) (v : List Char), v <+: text → v ∈ other.pattern → v.length ≤ w.length) →
      Munch text kind w
  | stray {c : Char} {cs : List Char} : text = c :: cs → c ≠ '"' →
      (∀ (kind : Kind) (w : List Char), w <+: text → w ≠ [] → w ∉ kind.pattern) →
      Munch text .stray [c]

theorem munch_lexeme (c : Char) (cs : List Char) :
    Munch (c :: cs) (lexeme c cs).1 (lexeme c cs).2 := by
  obtain ⟨kind, ds, rest, rfl, lexed⟩ := lexeme_eq_cons c cs
  by_cases quote : c = '"'
  · subst quote
    rw [lexeme, if_pos rfl]
    cases closed : closing? (ds ++ rest) with
    | some text =>
      obtain ⟨body, hbody, after, text, single, rfl⟩ := closing?_eq_some_iff.1 closed
      rw [text]
      exact .quoted rfl hbody single
    | none =>
      refine .unclosed rfl fun body after text hbody => ?_
      by_contra single
      have closes := closing?_eq_some_iff.2
        ⟨body, hbody, after, (List.cons.inj text).2, single, rfl⟩
      rw [closes] at closed
      cases closed
  · have long {other : Kind} {v : List Char} (begins : v <+: c :: (ds ++ rest))
        (h : v ∈ other.pattern) := length_le_lexeme quote begins h
    rw [lexed] at long ⊢
    by_cases token : kind = .stray
    · subst token
      rcases stray_of_lexeme lexed with rfl | ⟨hc, -⟩
      · exact .stray rfl quote fun _ _ begins _ h => (long begins h).1 rfl
      · exact absurd hc quote
    · exact .longest (by simpa using quote) (List.prefix_append (c :: ds) rest)
        (mem_pattern_of_lexeme quote lexed token) fun _ _ begins h => (long begins h).2

/-- The patterns leave no choice: they cut off what the lexer does. -/
theorem munch_iff_lexeme : Munch (c :: cs) kind w ↔ lexeme c cs = (kind, w) := by
  constructor
  · intro h
    cases h with
    | quoted text hbody single =>
      cases text
      exact lexeme_eq_string_iff.2 ⟨rfl, closing?_of_mem_quotedBody hbody single⟩
    | unclosed quote doubled =>
      cases quote
      cases closed : closing? cs with
      | none => rw [lexeme, if_pos rfl, closed]
      | some text =>
        obtain ⟨body, hbody, rest, rfl, single, -⟩ := closing?_eq_some_iff.1 closed
        exact absurd (doubled body rest rfl hbody) single
    | longest head begins hw longest =>
      have quote : c ≠ '"' := by simpa using head
      obtain ⟨token, long⟩ := length_le_lexeme quote begins hw
      obtain ⟨kind', ds, rest, rfl, lexed⟩ := lexeme_eq_cons c cs
      rw [lexed] at token long ⊢
      have pattern := mem_pattern_of_lexeme quote lexed token
      -- both are the longest text in front, so they are the same text
      have front : c :: ds <+: c :: (ds ++ rest) := List.prefix_append (c :: ds) rest
      have short := longest kind' (c :: ds) front pattern
      have same := (List.prefix_of_prefix_length_le front begins short).eq_of_length_le long
      rw [same] at pattern ⊢
      rw [kind_unique pattern hw]
    | stray text quote none =>
      cases text
      obtain ⟨kind', ds, rest, rfl, lexed⟩ := lexeme_eq_cons c cs
      have token : kind' = .stray := by
        by_contra token
        exact none kind' (c :: ds) (List.prefix_append (c :: ds) rest) (List.cons_ne_nil _ _)
          (mem_pattern_of_lexeme quote lexed token)
      subst token
      rcases stray_of_lexeme lexed with rfl | ⟨hc, -⟩
      · exact lexed
      · exact absurd hc quote
  · intro lexed
    have munch := munch_lexeme c cs
    rwa [lexed] at munch

/-- Every token is what the patterns cut off the text from where it starts, and nothing else is. -/
theorem ofText_munches (source : String) (base : Nat) (t : Token) (h : t ∈ ofText source base)
    (more : t.kind ≠ .finish) :
    ∃ before rest, source.toList = before ++ rest ∧
      t.span = ⟨base + Text.width before,
        base + Text.width before + Text.width t.text.toList⟩ ∧
      ∀ kind w, Munch rest kind w ↔ kind = t.kind ∧ w = t.text.toList := by
  obtain ⟨before, after, text, span, ⟨finish, -⟩ | ⟨c, ds, ht, -, lexed⟩⟩ := mem_scan h
  · exact absurd finish more
  refine ⟨before, c :: (ds ++ after), by simpa [ht] using text, span, fun kind w => ?_⟩
  rw [munch_iff_lexeme, lexed, ht, Prod.mk.injEq, eq_comm, eq_comm (a := c :: ds)]

theorem ofText_munches_pointed :
    ⟨.float, "+.5", ⟨2, 5⟩⟩ ∈ ofText "é+.5e3" 0 ∧
      ∃ before rest, "é+.5e3".toList = before ++ rest ∧ Text.width before = 2 ∧
        ∀ kind w, Munch rest kind w ↔ kind = .float ∧ w = "+.5".toList := by
  have mem : ⟨.float, "+.5", ⟨2, 5⟩⟩ ∈ ofText "é+.5e3" 0 := by decide
  obtain ⟨before, rest, text, span, munch⟩ := ofText_munches _ _ _ mem (by decide)
  exact ⟨mem, before, rest, text, by simpa using (congrArg Span.start span).symm, munch⟩

end DocMarks.Token
