import Mathlib
import DocMarks.Proofs.Text.Quoted

namespace DocMarks.Token

open scoped Computability

variable {c : Char} {cs ds w rest : List Char} {p : Char → Bool}

namespace Pattern

def one (p : Char → Bool) : Language Char := {w | ∃ c, p c ∧ w = [c]}

def maybe (l : Language Char) : Language Char := 1 + l

def sign : Language Char := one fun c => c == '+' || c == '-'

def digits : Language Char := one Char.isDigit * (one Char.isDigit)∗

def fraction : Language Char := one (· == '.') * digits

def exponent : Language Char := one (fun c => c == 'e' || c == 'E') * (maybe sign * digits)

/-- `[+-]?[0-9]+` -/
def integer : Language Char := maybe sign * digits

/-- `[+-]?[0-9]*\.[0-9]+` -/
def pointed : Language Char := maybe sign * ((one Char.isDigit)∗ * fraction)

/-- `[+-]?[0-9]+(\.[0-9]+)?[eE][+-]?[0-9]+` -/
def scientific : Language Char := maybe sign * (digits * (maybe fraction * exponent))

/-- `[a-zA-Z_\\][a-zA-Z0-9_\\]*` -/
def word : Language Char := one isNameStart * (one isNameRest)∗

def ignoringCase (s : String) : Language Char := {w | w.map Char.toLower = s.toList}

/-- `([^"]|"")*` -/
def quotedBody : Language Char :=
  (one (· != '"') + one (· == '"') * one (· == '"'))∗

theorem mem_maybe_iff {l : Language Char} : w ∈ maybe l ↔ w = [] ∨ w ∈ l := by
  rw [maybe, Language.mem_add, Language.mem_one]

theorem mem_kstar_one_iff : w ∈ (one p)∗ ↔ ∀ c ∈ w, p c := by
  rw [Language.mem_kstar]
  constructor
  · rintro ⟨l, rfl, all⟩ c hc
    obtain ⟨v, hv, hcv⟩ := List.mem_flatten.1 hc
    obtain ⟨d, hd, rfl⟩ := all v hv
    rwa [List.mem_singleton.1 hcv]
  · intro all
    refine ⟨w.map ([·]), (List.flatMap_singleton' w).symm, ?_⟩
    intro v hv
    obtain ⟨c, hc, rfl⟩ := List.mem_map.1 hv
    exact ⟨c, all c hc, rfl⟩

theorem mem_one_mul_iff {l : Language Char} : w ∈ one p * l ↔ ∃ c v, w = c :: v ∧ p c ∧ v ∈ l := by
  rw [Language.mem_mul]
  constructor
  · rintro ⟨_, ⟨c, hc, rfl⟩, v, hv, rfl⟩
    exact ⟨c, v, rfl, hc, hv⟩
  · rintro ⟨c, v, rfl, hc, hv⟩
    exact ⟨[c], ⟨c, hc, rfl⟩, v, hv, rfl⟩

theorem mem_digits_iff : w ∈ digits ↔ w ≠ [] ∧ ∀ c ∈ w, c.isDigit := by
  rw [digits, mem_one_mul_iff]
  constructor
  · rintro ⟨c, v, rfl, hc, hv⟩
    exact ⟨List.cons_ne_nil c v, List.forall_mem_cons.2 ⟨hc, mem_kstar_one_iff.1 hv⟩⟩
  · rintro ⟨nonempty, all⟩
    obtain ⟨c, v, rfl⟩ := List.exists_cons_of_ne_nil nonempty
    rw [List.forall_mem_cons] at all
    exact ⟨c, v, rfl, all.1, mem_kstar_one_iff.2 all.2⟩

theorem mem_word_iff : c :: cs ∈ word ↔ isNameStart c ∧ ∀ d ∈ cs, isNameRest d := by
  rw [word, mem_one_mul_iff, ← mem_kstar_one_iff]
  constructor
  · rintro ⟨d, v, h, hd, hv⟩
    cases h
    exact ⟨hd, hv⟩
  · rintro ⟨hc, hcs⟩
    exact ⟨c, cs, rfl, hc, hcs⟩

end Pattern

open Pattern

/-- The texts that a token of the kind may have. A word that is another word in some mixture of
cases is no name. -/
def Kind.pattern : Kind → Language Char
  | .trueWord => ignoringCase "true"
  | .falseWord => ignoringCase "false"
  | .nullWord => ignoringCase "null"
  | .integer => Pattern.integer
  | .float => pointed + scientific
  | .string => one (· == '"') * (quotedBody * one (· == '"'))
  | .name => {w | w ∈ word ∧ w ∉ ignoringCase "true" + ignoringCase "false" + ignoringCase "null"}
  | .atSign => one (· == '@')
  | .parenOpen => one (· == '(')
  | .parenClose => one (· == ')')
  | .braceOpen => one (· == '\x7b')
  | .braceClose => one (· == '\x7d')
  | .comma => one (· == ',')
  | .equals => one (· == '=')
  | .colon => one (· == ':')
  | .stray => 0
  | .finish => 0

theorem signOf_mem (cs : List Char) : signOf cs ∈ maybe sign := by
  rw [mem_maybe_iff]
  cases cs with
  | nil => exact .inl rfl
  | cons c cs =>
    rw [signOf]
    split
    case isTrue h => exact .inr ⟨c, by simpa using h, rfl⟩
    case isFalse => exact .inl rfl

theorem isDigit_digitsOf (cs : List Char) : ∀ c ∈ digitsOf cs, c.isDigit :=
  List.all_eq_true.1 List.all_takeWhile

theorem digitsOf_mem (h : digitsOf cs ≠ []) : digitsOf cs ∈ digits :=
  mem_digits_iff.2 ⟨h, isDigit_digitsOf cs⟩

theorem fractionOf_mem (h : fractionOf cs ≠ []) : fractionOf cs ∈ fraction := by
  rw [fractionOf.eq_def] at h ⊢
  split at h
  case h_1 ds =>
    split at h
    case isTrue => exact absurd rfl h
    case isFalse nonempty =>
      simp only [nonempty, if_false]
      exact mem_one_mul_iff.2 ⟨'.', _, rfl, rfl, digitsOf_mem nonempty⟩
  case h_2 => exact absurd rfl h

theorem exponentOf_mem (h : exponentOf cs ≠ []) : exponentOf cs ∈ exponent := by
  cases cs with
  | nil => exact absurd rfl h
  | cons c cs =>
    rw [exponentOf] at h ⊢
    split at h
    case isTrue mark =>
      rw [if_pos mark]
      exact mem_one_mul_iff.2 ⟨c, _, rfl, by simpa using mark.1,
        Language.append_mem_mul (signOf_mem cs) (digitsOf_mem mark.2)⟩
    case isFalse => exact absurd rfl h

theorem append_mem_pattern {s d f e : List Char} (hs : s ∈ maybe sign) (hd : d ∈ digits)
    (hf : f ≠ [] → f ∈ fraction) (he : e ≠ [] → e ∈ exponent) :
    s ++ d ++ f ++ e ∈ (if f = [] ∧ e = [] then Kind.integer else Kind.float).pattern := by
  rw [List.append_assoc, List.append_assoc]
  have all : d ∈ (one Char.isDigit)∗ := mem_kstar_one_iff.2 (mem_digits_iff.1 hd).2
  by_cases noExponent : e = []
  · subst noExponent
    rw [List.append_nil]
    by_cases noFraction : f = []
    · subst noFraction
      rw [if_pos ⟨rfl, rfl⟩, List.append_nil]
      exact Language.append_mem_mul hs hd
    · rw [if_neg fun h => noFraction h.1]
      exact .inl (Language.append_mem_mul hs (Language.append_mem_mul all (hf noFraction)))
  · rw [if_neg fun h => noExponent h.2]
    have hf : f ∈ maybe fraction := mem_maybe_iff.2 (or_iff_not_imp_left.2 hf)
    exact .inr (Language.append_mem_mul hs (Language.append_mem_mul hd
      (Language.append_mem_mul hf (he noExponent))))

theorem number?_mem {kind : Kind} (h : number? cs = some (kind, w)) : w ∈ kind.pattern := by
  rw [number?] at h
  have hs := signOf_mem cs
  simp only at h
  split at h
  case isTrue =>
    split at h
    case isTrue => cases h
    case isFalse point =>
      cases h
      exact .inl (Language.append_mem_mul hs
        (Language.append_mem_mul (Language.nil_mem_kstar _) (fractionOf_mem point)))
  case isFalse whole =>
    cases h
    exact append_mem_pattern hs (digitsOf_mem whole) fractionOf_mem exponentOf_mem

theorem isAlpha_of_toLower (h : c.toLower.isLower) : c.isAlpha := by
  rw [Char.isAlpha, Bool.or_eq_true]
  rw [Char.toLower] at h
  split at h
  case isTrue upper => exact .inl (by simpa [Char.isUpper] using upper)
  case isFalse => exact .inr h

theorem mem_word_of_ignoringCase {s : String} (lower : s.toList.all Char.isLower)
    (nonempty : s.toList ≠ []) (h : w ∈ ignoringCase s) : w ∈ word := by
  have alpha : ∀ c ∈ w, c.isAlpha := by
    intro c hc
    apply isAlpha_of_toLower
    apply List.all_eq_true.1 lower
    rw [← (h : w.map Char.toLower = s.toList)]
    exact List.mem_map_of_mem hc
  cases w with
  | nil => exact absurd (h : [] = s.toList).symm nonempty
  | cons c cs =>
    rw [List.forall_mem_cons] at alpha
    refine mem_word_iff.2 ⟨by simp [isNameStart, alpha.1], ?_⟩
    intro d hd
    simp [isNameRest, isNameStart, alpha.2 d hd]

theorem mem_pattern_wordKind (h : w ∈ word) : w ∈ (wordKind w).pattern := by
  rw [wordKind]
  split
  case isTrue eq => exact eq
  case isFalse notTrue =>
    split
    case isTrue eq => exact eq
    case isFalse notFalse =>
      split
      case isTrue eq => exact eq
      case isFalse notNull =>
        refine ⟨h, ?_⟩
        rintro ((eq | eq) | eq)
        · exact notTrue eq
        · exact notFalse eq
        · exact notNull eq

theorem mark_mem {kind : Kind} (h : punctuation? c = some kind) : [c] ∈ kind.pattern := by
  rw [punctuation?.eq_def] at h
  split at h <;> cases h <;> exact ⟨_, rfl, rfl⟩

theorem mem_pattern_cases {kind : Kind} (h : w ∈ kind.pattern) :
    (w ∈ word ∧ wordKind w = kind) ∨
    (kind = .integer ∧ w ∈ Pattern.integer) ∨
    (kind = .float ∧ w ∈ pointed + scientific) ∨
    (∃ c, punctuation? c = some kind ∧ w = [c]) ∨
    (kind = .string ∧ ∃ body ∈ quotedBody, w = '"' :: (body ++ ['"'])) := by
  cases kind with
  | trueWord => exact .inl ⟨mem_word_of_ignoringCase rfl (by decide) h, if_pos h⟩
  | falseWord =>
    refine .inl ⟨mem_word_of_ignoringCase rfl (by decide) h, ?_⟩
    rw [wordKind, (h : w.map Char.toLower = _)]
    rfl
  | nullWord =>
    refine .inl ⟨mem_word_of_ignoringCase rfl (by decide) h, ?_⟩
    rw [wordKind, (h : w.map Char.toLower = _)]
    rfl
  | name =>
    obtain ⟨hw, other⟩ := h
    refine .inl ⟨hw, ?_⟩
    rw [wordKind]
    split
    case isTrue eq => exact absurd (.inl (.inl eq)) other
    case isFalse =>
      split
      case isTrue eq => exact absurd (.inl (.inr eq)) other
      case isFalse =>
        split
        case isTrue eq => exact absurd (.inr eq) other
        case isFalse => rfl
  | integer => exact .inr (.inl ⟨rfl, h⟩)
  | float => exact .inr (.inr (.inl ⟨rfl, h⟩))
  | string =>
    obtain ⟨q, v, rfl, hq, hv⟩ := mem_one_mul_iff.1 h
    obtain ⟨body, hbody, _, ⟨r, hr, rfl⟩, rfl⟩ := Language.mem_mul.1 hv
    rw [eq_of_beq hq, eq_of_beq hr]
    exact .inr (.inr (.inr (.inr ⟨rfl, body, hbody, rfl⟩)))
  | stray => cases h
  | finish => cases h
  | _ =>
    obtain ⟨c, hc, rfl⟩ := h
    rw [eq_of_beq hc]
    exact .inr (.inr (.inr (.inl ⟨_, rfl, rfl⟩)))

end DocMarks.Token
