import Mathlib
import DocMarks.Proofs.Token.Lexeme
import DocMarks.Region

namespace DocMarks.Token

variable {c : Char} {cs ds rest : List Char}

/-- The character continues neither a word nor a number, and doubles no quote. -/
def isInert (c : Char) : Bool :=
  !isNameRest c && c != '"' && c != '.' && c != '+' && c != '-'

def Inert (rest : List Char) : Prop := ∀ c ∈ rest.head?, isInert c

theorem isInert_iff :
    isInert c ↔ isNameRest c = false ∧ c ≠ '"' ∧ c ≠ '.' ∧ c ≠ '+' ∧ c ≠ '-' := by
  simp [isInert, and_assoc]

theorem isDigit_of_isInert (h : isInert c) : c.isDigit = false := by
  have := (isInert_iff.1 h).1
  simp only [isNameRest, Bool.or_eq_false_iff] at this
  exact this.2

theorem takeWhile_append_of_head? {p : Char → Bool} (cs : List Char)
    (stop : ∀ c ∈ rest.head?, p c = false) : (cs ++ rest).takeWhile p = cs.takeWhile p := by
  induction cs with
  | nil =>
    cases rest with
    | nil => rfl
    | cons c rest => simp [stop c rfl]
  | cons c cs ih => rw [List.cons_append, List.takeWhile_cons, List.takeWhile_cons, ih]

namespace Inert

theorem digitsOf_append (h : Inert rest) (cs : List Char) :
    digitsOf (cs ++ rest) = digitsOf cs :=
  takeWhile_append_of_head? cs fun c hc => isDigit_of_isInert (h c hc)

theorem signOf_append (h : Inert rest) (cs : List Char) : signOf (cs ++ rest) = signOf cs := by
  cases cs with
  | cons c cs => rfl
  | nil =>
    cases rest with
    | nil => rfl
    | cons c rest =>
      obtain ⟨-, -, -, plus, minus⟩ := isInert_iff.1 (h c rfl)
      simp [signOf, plus, minus]

theorem drop_append {xs : List Char} (h : xs <+: cs) :
    (cs ++ rest).drop xs.length = cs.drop xs.length ++ rest :=
  List.drop_append_of_le_length h.length_le

theorem fractionOf_append (h : Inert rest) (cs : List Char) :
    fractionOf (cs ++ rest) = fractionOf cs := by
  have other : ∀ {c : Char} {cs : List Char}, c ≠ '.' → fractionOf (c :: cs) = [] := by
    intro c cs point
    rw [fractionOf]
    simp [point]
  cases cs with
  | nil =>
    cases rest with
    | nil => rfl
    | cons c rest =>
      obtain ⟨-, -, point, -, -⟩ := isInert_iff.1 (h c rfl)
      exact other point
  | cons c cs =>
    by_cases point : c = '.'
    · subst point
      simp only [List.cons_append, fractionOf, h.digitsOf_append]
    · rw [List.cons_append, other point, other point]

theorem exponentOf_append (h : Inert rest) (cs : List Char) :
    exponentOf (cs ++ rest) = exponentOf cs := by
  cases cs with
  | nil =>
    cases rest with
    | nil => rfl
    | cons c rest =>
      obtain ⟨name, -⟩ := isInert_iff.1 (h c rfl)
      have mark : ¬ (c = 'e' ∨ c = 'E') := by
        rintro (rfl | rfl)
        · exact absurd name (by decide)
        · exact absurd name (by decide)
      simp [exponentOf, mark]
  | cons c cs =>
    rw [List.cons_append, exponentOf, exponentOf, h.signOf_append, drop_append (isPrefix_signOf cs),
      h.digitsOf_append]

theorem number?_append (h : Inert rest) (cs : List Char) : number? (cs ++ rest) = number? cs := by
  rw [number?, number?]
  simp only [h.signOf_append, drop_append (isPrefix_signOf cs), h.digitsOf_append,
    drop_append (isPrefix_digitsOf _), h.fractionOf_append, drop_append (isPrefix_fractionOf _),
    h.exponentOf_append]

theorem closing?_append (h : Inert rest) (closed : closing? cs = some ds) :
    closing? (cs ++ rest) = some ds := by
  induction cs using closing?.induct generalizing ds with
  | case1 => cases closed
  | case2 cs ih =>
    rw [closing?] at closed
    obtain ⟨es, hes, rfl⟩ := Option.map_eq_some_iff.1 closed
    rw [List.cons_append, List.cons_append, closing?, ih hes]
    rfl
  | case3 cs single =>
    rw [closing?] at closed
    · rw [List.cons_append, closing?, closed]
      intro es hes
      cases cs with
      | nil => exact absurd (h '"' (by rw [List.nil_append] at hes; rw [hes]; rfl)) (by decide)
      | cons c cs => exact single cs (by rw [(List.cons.inj hes).1])
    · assumption
  | case4 c cs _ quote ih =>
    rw [closing?] at closed
    · obtain ⟨es, hes, rfl⟩ := Option.map_eq_some_iff.1 closed
      rw [List.cons_append, closing?, ih hes]
      · rfl
      · exact fun _ hc => absurd hc quote
      · exact quote
    · assumption
    · assumption

end Inert

def Unclosed (t : Token) : Prop := t.kind = .stray ∧ t.text.toList.head? = some '"'

instance (t : Token) : Decidable t.Unclosed := inferInstanceAs (Decidable (_ ∧ _))

theorem lexeme_append {kind : Kind} (h : Inert rest) (lexed : lexeme c cs = (kind, c :: ds))
    (closed : ¬ (kind = .stray ∧ c = '"')) : lexeme c (cs ++ rest) = (kind, c :: ds) := by
  rw [lexeme] at lexed ⊢
  split at lexed
  case isTrue quote =>
    rw [if_pos quote]
    cases hc : closing? cs with
    | none =>
      simp only [hc, Prod.mk.injEq] at lexed
      exact absurd ⟨lexed.1.symm, quote⟩ closed
    | some ds' =>
      simp only [hc] at lexed
      simp only [h.closing?_append hc, lexed]
  case isFalse quote =>
    rw [if_neg quote]
    split at lexed
    case isTrue word =>
      rw [if_pos word, takeWhile_append_of_head? cs fun c hc => (isInert_iff.1 (h c hc)).1]
      exact lexed
    case isFalse word =>
      rw [if_neg word, ← List.cons_append, h.number?_append]
      exact lexed

theorem scan_append (h : Inert rest) (p : Nat) (cs : List Char)
    (closed : ∀ t ∈ scan p cs, ¬ t.Unclosed) :
    ∃ ts, scan p cs = ts ++ [finishAt (p + Text.width cs)] ∧
      scan p (cs ++ rest) = ts ++ scan (p + Text.width cs) rest ∧ ∀ t ∈ ts, t.kind ≠ .finish := by
  revert closed
  induction p, cs using scan_induction with
  | nil p => exact fun _ => ⟨[], rfl, rfl, fun _ ht => nomatch ht⟩
  | gap p c cs ts gap ih =>
    intro closed
    obtain ⟨us, rfl, cut, kinds⟩ := ih closed
    refine ⟨us, ?_, ?_, kinds⟩
    · rw [Text.width_cons, Nat.add_assoc]
    · rw [List.cons_append, scan_gap p _ gap, cut, Text.width_cons, Nat.add_assoc]
  | token p c ds cs kind ts gap lexed ih =>
    intro closed
    rw [List.forall_mem_cons] at closed
    obtain ⟨us, rfl, cut, kinds⟩ := ih closed.2
    have lexed' : lexeme c (ds ++ (cs ++ rest)) = (kind, c :: ds) := by
      rw [← List.append_assoc]
      apply lexeme_append h lexed
      rintro ⟨stray, quote⟩
      exact closed.1 ⟨stray, by simp [quote]⟩
    have width : p + Text.width (c :: (ds ++ cs)) =
        p + Text.width (c :: ds) + Text.width cs := by
      rw [← List.cons_append, Text.width_append, Nat.add_assoc]
    rw [width]
    refine ⟨⟨kind, String.ofList (c :: ds), ⟨p, p + Text.width (c :: ds)⟩⟩ :: us, rfl, ?_,
      List.forall_mem_cons.2 ⟨?_, kinds⟩⟩
    · rw [List.cons_append, List.append_assoc, scan_lexeme p gap lexed', cut, List.cons_append]
    · have finish := lexeme_ne_finish c (ds ++ cs)
      rwa [lexed] at finish

theorem scan_gaps (p : Nat) (gaps : ∀ c ∈ cs, isGap c) (rest : List Char) :
    scan p (cs ++ rest) = scan (p + Text.width cs) rest := by
  induction cs generalizing p with
  | nil => rfl
  | cons c cs ih =>
    rw [List.forall_mem_cons] at gaps
    rw [List.cons_append, scan_gap p _ gaps.1, ih _ gaps.2, Text.width_cons, Nat.add_assoc]

theorem toNat_of_isNameRest (h : isNameRest c) : 32 < c.toNat ∧ c.toNat < 128 := by
  simp only [isNameRest, isNameStart, Char.isAlpha, Char.isUpper, Char.isLower, Char.isDigit,
    Bool.or_eq_true, Bool.and_eq_true, decide_eq_true_eq, beq_iff_eq, UInt32.le_iff_toNat_le,
    ge_iff_le] at h
  change (((65 ≤ c.toNat ∧ c.toNat ≤ 90 ∨ 97 ≤ c.toNat ∧ c.toNat ≤ 122) ∨ c = '_') ∨ c = '\\') ∨
    48 ≤ c.toNat ∧ c.toNat ≤ 57 at h
  rcases h with ((h | rfl) | rfl) | h
  · omega
  · decide
  · decide
  · omega

theorem toNat_of_isBlank (h : Text.isBlank c) : c.toNat ≤ 32 ∨ 128 ≤ c.toNat := by
  simp only [Text.isBlank, Text.blankRanges, List.any_cons, List.any_nil, Bool.or_eq_true,
    Bool.and_eq_true, decide_eq_true_eq, Bool.or_false] at h
  omega

theorem isInert_of_isBlank (h : Text.isBlank c) : isInert c := by
  have code := toNat_of_isBlank h
  refine isInert_iff.2 ⟨?_, ?_, ?_, ?_, ?_⟩
  · rw [← Bool.not_eq_true]
    intro name
    have := toNat_of_isNameRest name
    omega
  all_goals
    rintro rfl
    exact absurd code (by decide)

theorem isInert_of_isDecoration (h : Region.isDecoration c) : isInert c := by
  simp only [Region.isDecoration, Bool.or_eq_true, beq_iff_eq] at h
  rcases h with (rfl | rfl) | blank
  · decide
  · decide
  · exact isInert_of_isBlank blank

theorem isDecoration_of_isGap (h : isGap c) : Region.isDecoration c := by
  simp only [isGap_iff, List.mem_cons, List.not_mem_nil, or_false] at h
  rcases h with rfl | rfl | rfl | rfl | rfl | rfl <;> decide

theorem punctuation?_of_isDecoration (h : Region.isDecoration c) : punctuation? c = none := by
  rw [punctuation?.eq_def]
  split
  all_goals first | rfl | exact absurd h (by decide)

theorem lexeme_decoration (h : Region.isDecoration c) (cs : List Char) :
    lexeme c cs = (.stray, [c]) := by
  have inert := isInert_of_isDecoration h
  obtain ⟨name, quote, -⟩ := isInert_iff.1 inert
  have start : isNameStart c = false := (Bool.or_eq_false_iff.1 name).1
  have goesOn : Inert (c :: cs) := by
    intro d hd
    cases hd
    exact inert
  have number : number? (c :: cs) = none := goesOn.number?_append []
  rw [lexeme, if_neg quote, if_neg (by simp [start]), number, punctuation?_of_isDecoration h]
  rfl

theorem scan_decoration (p : Nat) (h : ∀ c ∈ cs, Region.isDecoration c) (rest : List Char) :
    ∃ ts, scan p (cs ++ rest) = ts ++ scan (p + Text.width cs) rest ∧
      ∀ t ∈ ts, t.kind = .stray ∧ t.span.stop ≤ p + Text.width cs := by
  induction cs generalizing p with
  | nil => exact ⟨[], rfl, fun _ ht => nomatch ht⟩
  | cons c cs ih =>
    rw [List.forall_mem_cons] at h
    obtain ⟨ts, cut, strays⟩ := ih (p + c.utf8Size) h.2
    rw [Text.width_cons, ← Nat.add_assoc]
    cases gap : isGap c with
    | true => exact ⟨ts, by rw [List.cons_append, scan_gap p _ gap, cut], strays⟩
    | false =>
      refine ⟨⟨.stray, String.ofList [c], ⟨p, p + c.utf8Size⟩⟩ :: ts, ?_,
        List.forall_mem_cons.2 ⟨⟨rfl, Nat.le_add_right _ _⟩, strays⟩⟩
      rw [List.cons_append, scan_single p gap (lexeme_decoration h.1 _), cut, List.cons_append]

end DocMarks.Token
