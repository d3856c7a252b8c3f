import DocMarks.Json.Raw
import DocMarks.Json.Basic
import DocMarks.Proofs.Numeral

namespace DocMarks

namespace Binary64.Layout

theorem toList_digits (n : Nat) : (digits n).toList = Nat.toDigits 10 n := String.toList_ofList

theorem head?_plain (d : Decimal) : ∃ c, (plain d).toList.head? = some c ∧ c.isDigit := by
  obtain ⟨c, cs, written, digit⟩ := Numeral.toDigits_eq_cons d.digits
  rw [plain]
  split
  case isTrue => exact ⟨c, by simp [toList_digits, written], digit⟩
  case isFalse =>
    simp only [written]
    split
    case isTrue short =>
      have some : cs.length + 1 - (-d.exponent).toNat ≠ 0 := Nat.sub_ne_zero_of_lt short
      exact ⟨c, by simp [List.head?_take, some], digit⟩
    case isFalse => exact ⟨'0', by simp, rfl⟩

theorem head?_scientific (l : Layout) (d : Decimal) (leading : Int) :
    ∃ c, (l.scientific d leading).toList.head? = some c ∧ c.isDigit := by
  obtain ⟨c, cs, written, digit⟩ := Numeral.toDigits_eq_cons d.digits
  rw [scientific, written]
  cases cs with
  | nil => exact ⟨c, by simp, digit⟩
  | cons second rest => exact ⟨c, by simp, digit⟩

theorem head?_magnitude (l : Layout) (units : Nat) :
    ∃ c, (l.magnitude units).toList.head? = some c ∧ c.isDigit := by
  rw [magnitude]
  split
  · exact head?_plain _
  · exact head?_scientific l _ _

end Binary64.Layout

namespace Json

def opens : Json → Char → Bool
  | .null, c => c == 'n'
  | .bool _, c => c == 't' || c == 'f'
  | .integer _, c => c == '-' || c.isDigit
  | .float (.finite _ _), c => c == '-' || c.isDigit
  | .float _, c => c == 'n'
  | .string _, c => c == '"'
  | .list _, c => c == '['
  | .object _, c => c == '\x7b'

theorem toList_quote (s : String) :
    (quote s).toList = '"' :: (s.toList.flatMap escape ++ ['"']) := String.toList_ofList

theorem toList_compact_list (items : List Json) :
    (list items).compact.toList = '[' :: ((compactItems items).toList ++ [']']) := by
  simp [compact]

theorem toList_compact_object (members : List (String × Json)) :
    (object members).compact.toList = '\x7b' :: ((compactMembers members).toList ++ ['\x7d']) := by
  simp [compact]

theorem opens_compact (j : Json) : ∃ c, j.compact.toList.head? = some c ∧ j.opens c := by
  cases j with
  | null => exact ⟨'n', rfl, rfl⟩
  | bool b =>
    cases b with
    | true => exact ⟨'t', rfl, rfl⟩
    | false => exact ⟨'f', rfl, rfl⟩
  | integer z =>
    change ∃ c, (toString z).toList.head? = some c ∧ _
    rw [Numeral.toList_toString, Numeral.printedSign]
    split
    case isTrue => exact ⟨'-', rfl, rfl⟩
    case isFalse =>
      obtain ⟨c, cs, written, digit⟩ := Numeral.toDigits_eq_cons z.natAbs
      exact ⟨c, by simp [written], by simp [opens, digit]⟩
  | float x =>
    cases x with
    | finite negative units =>
      cases negative with
      | true => exact ⟨'-', by simp [compact, leaf, Binary64.Layout.render], rfl⟩
      | false =>
        obtain ⟨c, written, digit⟩ := floats.head?_magnitude units
        exact ⟨c, written, by simp [opens, digit]⟩
    | infinite negative => cases negative <;> exact ⟨'n', rfl, rfl⟩
    | nan => exact ⟨'n', rfl, rfl⟩
  | string s => exact ⟨'"', by simp [compact, leaf, toList_quote], rfl⟩
  | list items => exact ⟨'[', by simp [toList_compact_list], rfl⟩
  | object members => exact ⟨'\x7b', by simp [toList_compact_object], rfl⟩

theorem compact_eq_null_iff {j : Json} :
    j.compact = "null" ↔ j = .null ∨ (∃ negative, j = .float (.infinite negative)) ∨
      j = .float .nan := by
  constructor
  · intro h
    obtain ⟨c, first, opens⟩ := opens_compact j
    rw [h] at first
    cases first
    cases j with
    | null => exact .inl rfl
    | float x =>
      cases x with
      | finite => cases opens
      | infinite negative => exact .inr (.inl ⟨negative, rfl⟩)
      | nan => exact .inr (.inr rfl)
    | _ => cases opens
  · rintro (rfl | ⟨negative, rfl⟩ | rfl)
    · rfl
    · cases negative <;> rfl
    · rfl

namespace Raw

def Reads (w : List Char) (c : Char) : Prop :=
  ∃ p, (∀ ps, units none (p :: ps) = some c :: units none ps) ∧
    ∀ rest, pieces (w ++ rest) = (pieces rest).map fun (ps, cs) => (p :: ps, cs)

theorem reads_simpleEscape {e c : Char} (h : simpleEscape? e = some c) : Reads ['\\', e] c := by
  refine ⟨.char c, fun _ => rfl, fun rest => ?_⟩
  have code : e ≠ 'u' := by
    rintro rfl
    cases h
  change pieces ('\\' :: e :: rest) = _
  rw [pieces]
  · rw [h]
    cases pieces rest <;> rfl
  · rintro _ _ _ _ _ rfl
    exact absurd rfl code

theorem reads_code {a b c : Char} (h : hex4? '0' '0' a b = some c.toNat) (small : c.toNat < 32) :
    Reads ['\\', 'u', '0', '0', a, b] c := by
  refine ⟨.code c.toNat, fun ps => ?_, fun rest => ?_⟩
  · have high : isHigh c.toNat = false := by simp [isHigh]; omega
    have low : isLow c.toNat = false := by simp [isLow]; omega
    simp [units, high, low]
  · simp only [List.cons_append, List.nil_append, pieces, h]
    cases pieces rest <;> rfl

theorem reads_char {c : Char} (quote : c ≠ '"') (backslash : c ≠ '\\') (large : 32 ≤ c.toNat) :
    Reads [c] c := by
  refine ⟨.char c, fun _ => rfl, fun rest => ?_⟩
  have own : ¬ (c.toNat < 0x20 ∨ c = '\\') := by
    rintro (small | rfl)
    · omega
    · exact backslash rfl
  change pieces (c :: rest) = _
  rw [pieces, if_neg own]
  · cases pieces rest <;> rfl
  · exact quote
  · rintro _ _ _ _ _ rfl
    exact absurd rfl backslash
  · rintro _ _ rfl
    exact absurd rfl backslash

theorem reads_escape (c : Char) : Reads (escape c) c := by
  have same {n : Nat} (h : c.toNat = n) : c = Char.ofNat n := by rw [← h, Char.ofNat_toNat]
  rw [escape]
  split
  case isTrue h => exact reads_simpleEscape (by rw [h]; rfl)
  split
  case isTrue h => exact reads_simpleEscape (by rw [h]; rfl)
  split
  case isTrue h => exact reads_simpleEscape (by rw [h]; rfl)
  split
  case isTrue h => exact reads_simpleEscape (by rw [h]; rfl)
  split
  case isTrue h => exact reads_simpleEscape (by rw [h]; rfl)
  split
  case isTrue h => exact reads_simpleEscape (by rw [same h]; rfl)
  split
  case isTrue h => exact reads_simpleEscape (by rw [same h]; rfl)
  split
  case isTrue small =>
    have codes : ∀ n < 32, hex4? '0' '0' (hexDigit (n / 16)) (hexDigit (n % 16)) = some n := by
      decide
    exact reads_code (codes _ small) small
  case isFalse quote backslash _ _ _ _ _ large => exact reads_char quote backslash (by omega)

theorem string?_escape (cs rest : List Char) :
    string? (cs.flatMap escape ++ '"' :: rest) = some (cs.map some, rest) := by
  suffices ∃ ps, pieces (cs.flatMap escape ++ '"' :: rest) = some (ps, rest) ∧
      units none ps = cs.map some by
    obtain ⟨ps, read, text⟩ := this
    rw [string?, read, ← text]
    rfl
  induction cs with
  | nil => exact ⟨[], rfl, rfl⟩
  | cons c cs ih =>
    obtain ⟨ps, read, text⟩ := ih
    obtain ⟨p, unit, first⟩ := reads_escape c
    refine ⟨p :: ps, ?_, by rw [unit, text, List.map_cons]⟩
    rw [List.flatMap_cons, List.append_assoc, first, read]
    rfl

end Raw

inductive FloatFree : Json → Prop
  | null : FloatFree .null
  | bool (b : Bool) : FloatFree (.bool b)
  | integer (z : Int) : FloatFree (.integer z)
  | string (s : String) : FloatFree (.string s)
  | list {items : List Json} : (∀ j ∈ items, FloatFree j) → FloatFree (.list items)
  | object {members : List (String × Json)} : (∀ e ∈ members, FloatFree e.2) →
      FloatFree (.object members)

def Terminated (rest : List Char) : Prop := ∀ c ∈ rest.head?, c = ',' ∨ c = ']' ∨ c = '\x7d'

variable {α : Type} {spell : α → List Char} {x y : α} {xs ys : List α} {rest rest' : List Char}

/-- The two are spelled the same only if they are the same, and then the texts after them are. -/
def Told (spell : α → List Char) (x y : α) : Prop :=
  ∀ {rest rest'}, Terminated rest → Terminated rest' → spell x ++ rest = spell y ++ rest' →
    x = y ∧ rest = rest'

def joined (spell : α → List Char) : List α → List Char
  | [] => []
  | x :: xs => spell x ++ xs.flatMap fun y => ',' :: spell y

def spellMember (e : String × Json) : List Char := (quote e.1).toList ++ ':' :: e.2.compact.toList

theorem toList_compactItems (items : List Json) :
    (compactItems items).toList = joined (·.compact.toList) items := by
  induction items with
  | nil => rfl
  | cons j items ih =>
    cases items with
    | nil => simp [compactItems, joined]
    | cons k items => simpa [compactItems, joined] using ih

theorem toList_compactMembers (members : List (String × Json)) :
    (compactMembers members).toList = joined spellMember members := by
  induction members with
  | nil => rfl
  | cons e members ih =>
    cases members with
    | nil => simp [compactMembers, joined, spellMember]
    | cons e' members => simpa [compactMembers, joined, spellMember] using ih

theorem terminated_flatMap {closing : Char} (closes : closing = ']' ∨ closing = '\x7d') :
    Terminated ((xs.flatMap fun x => ',' :: spell x) ++ closing :: rest) := by
  cases xs with
  | nil => simpa [Terminated] using .inr closes
  | cons x xs => simp [Terminated]

theorem told_flatMap {closing : Char} (closes : closing = ']' ∨ closing = '\x7d')
    (told : ∀ x ∈ xs, ∀ y ∈ ys, Told spell x y)
    (h : (xs.flatMap fun x => ',' :: spell x) ++ closing :: rest =
      (ys.flatMap fun y => ',' :: spell y) ++ closing :: rest') : xs = ys ∧ rest = rest' := by
  have comma : closing ≠ ',' := by
    rintro rfl
    simp at closes
  induction xs generalizing ys with
  | nil =>
    cases ys with
    | nil => exact ⟨rfl, (List.cons.inj h).2⟩
    | cons y ys => exact absurd (List.cons.inj h).1 comma
  | cons x xs ih =>
    cases ys with
    | nil => exact absurd (List.cons.inj h).1.symm comma
    | cons y ys =>
      simp only [List.flatMap_cons, List.cons_append, List.append_assoc, List.cons.injEq,
        true_and] at h
      obtain ⟨rfl, later⟩ := told x (.head _) y (.head _) (terminated_flatMap closes)
        (terminated_flatMap closes) h
      obtain ⟨rfl, rfl⟩ := ih (fun x hx y hy => told x (.tail _ hx) y (.tail _ hy)) later
      exact ⟨rfl, rfl⟩

/-- A list is told by its items, none of which starts like the end of the list. -/
theorem told_joined {closing : Char} (closes : closing = ']' ∨ closing = '\x7d')
    (starts : ∀ x, ∃ c, (spell x).head? = some c ∧ c ≠ closing)
    (told : ∀ x ∈ xs, ∀ y ∈ ys, Told spell x y)
    (h : joined spell xs ++ closing :: rest = joined spell ys ++ closing :: rest') :
    xs = ys ∧ rest = rest' := by
  have nonempty (x : α) (more : List Char) : closing :: rest ≠ spell x ++ more ∧
      spell x ++ more ≠ closing :: rest' := by
    obtain ⟨c, first, other⟩ := starts x
    obtain ⟨cs, text⟩ := List.head?_eq_some_iff.1 first
    rw [text]
    exact ⟨fun h => other (List.cons.inj h).1.symm, fun h => other (List.cons.inj h).1⟩
  cases xs with
  | nil =>
    cases ys with
    | nil => exact ⟨rfl, (List.cons.inj h).2⟩
    | cons y ys =>
      rw [joined, joined, List.append_assoc] at h
      exact absurd h (nonempty y _).1
  | cons x xs =>
    cases ys with
    | nil =>
      rw [joined, joined, List.append_assoc] at h
      exact absurd h (nonempty x _).2
    | cons y ys =>
      rw [joined, joined, List.append_assoc, List.append_assoc] at h
      obtain ⟨rfl, later⟩ := told x (.head _) y (.head _) (terminated_flatMap closes)
        (terminated_flatMap closes) h
      obtain ⟨rfl, rfl⟩ := told_flatMap closes
        (fun x hx y hy => told x (.tail _ hx) y (.tail _ hy)) later
      exact ⟨rfl, rfl⟩

theorem told_toString (z z' : Int) : Told (fun z : Int => (toString z).toList) z z' := by
  intro rest rest' ends ends' h
  change (toString z).toList ++ rest = (toString z').toList ++ rest' at h
  let p : Char → Bool := fun c => c == '-' || c.isDigit
  have all (z : Int) : ∀ c ∈ (toString z).toList, p c := by
    intro c hc
    rw [Numeral.toList_toString, Numeral.printedSign, List.mem_append] at hc
    rcases hc with sign | digit
    · split at sign
      · simp [p, List.mem_singleton.1 sign]
      · cases sign
    · simp [p, Numeral.isDigit_toDigits digit]
  have stop {rest : List Char} (ends : Terminated rest) : rest.takeWhile p = [] := by
    cases rest with
    | nil => rfl
    | cons c rest => rcases ends c rfl with rfl | rfl | rfl <;> rfl
  have text := congrArg (List.takeWhile p) h
  simp only [List.takeWhile_append_of_pos (all _), stop ends, stop ends', List.append_nil] at text
  rw [text] at h
  refine ⟨?_, List.append_cancel_left h⟩
  have value := Numeral.integer?_toString z
  rw [text, Numeral.integer?_toString] at value
  exact (Option.some.inj value).symm

theorem quote_append_inj {s t : String} (h : (quote s).toList ++ rest = (quote t).toList ++ rest') :
    s = t ∧ rest = rest' := by
  simp only [toList_quote, List.cons_append, List.append_assoc, List.nil_append, List.cons.injEq,
    true_and] at h
  have read := congrArg Raw.string? h
  rw [Raw.string?_escape, Raw.string?_escape, Option.some.injEq, Prod.mk.injEq] at read
  have chars : s.toList = t.toList := (List.map_inj_right fun _ _ => Option.some.inj).1 read.1
  exact ⟨String.toList_inj.1 chars, read.2⟩

theorem exists_opens (j k : Json) (h : j.compact.toList ++ rest = k.compact.toList ++ rest') :
    ∃ c, j.opens c ∧ k.opens c := by
  obtain ⟨c, first, opens⟩ := opens_compact j
  obtain ⟨c', first', opens'⟩ := opens_compact k
  have same := congrArg List.head? h
  rw [List.head?_append, List.head?_append, first, first'] at same
  cases same
  exact ⟨c, opens, opens'⟩

theorem head?_compact_ne (j : Json) : ∃ c, j.compact.toList.head? = some c ∧ c ≠ ']' := by
  obtain ⟨c, first, opens⟩ := opens_compact j
  refine ⟨c, first, ?_⟩
  rintro rfl
  cases j with
  | float x => cases x <;> cases opens
  | _ => cases opens

theorem told_spellMember {e e' : String × Json} (told : Told (·.compact.toList) e.2 e'.2) :
    Told spellMember e e' := by
  intro rest rest' ends ends' h
  rw [spellMember, spellMember, List.append_assoc, List.append_assoc] at h
  obtain ⟨name, later⟩ := quote_append_inj h
  obtain ⟨value, rfl⟩ := told ends ends' (List.cons.inj later).2
  exact ⟨Prod.ext name value, rfl⟩

theorem not_opens_integer {b : Bool} {z : Int} {c : Char} (h : (Json.bool b).opens c) :
    ¬ (Json.integer z).opens c := by
  simp only [opens, Bool.or_eq_true, beq_iff_eq] at h
  rcases h with rfl | rfl <;> exact Bool.false_ne_true

/-- Without floats, the spelling tells the tree. -/
theorem FloatFree.told {j k : Json} (free : j.FloatFree) (free' : k.FloatFree) :
    Told (·.compact.toList) j k := by
  induction free generalizing k with
  | null =>
    intro rest rest' _ _ h
    obtain ⟨c, left, right⟩ := exists_opens _ _ h
    cases free' with
    | null => exact ⟨rfl, List.append_cancel_left h⟩
    | _ => simp_all [opens]
  | bool b =>
    intro rest rest' _ _ h
    obtain ⟨c, left, right⟩ := exists_opens _ _ h
    cases free' with
    | bool b' => cases b <;> cases b' <;> simp_all [compact, leaf]
    | integer z => exact absurd right (not_opens_integer left)
    | _ => simp_all [opens]
  | integer z =>
    intro rest rest' ends ends' h
    obtain ⟨c, left, right⟩ := exists_opens _ _ h
    cases free' with
    | integer z' =>
      obtain ⟨rfl, rfl⟩ := told_toString z z' ends ends' h
      exact ⟨rfl, rfl⟩
    | bool b => exact absurd left (not_opens_integer right)
    | _ => simp_all [opens]
  | string s =>
    intro rest rest' _ _ h
    obtain ⟨c, left, right⟩ := exists_opens _ _ h
    cases free' with
    | string s' =>
      obtain ⟨rfl, rfl⟩ := quote_append_inj h
      exact ⟨rfl, rfl⟩
    | _ => simp_all [opens]
  | @list items free ih =>
    intro rest rest' _ _ h
    obtain ⟨c, left, right⟩ := exists_opens _ _ h
    cases free' with
    | @list items' free' =>
      simp only [toList_compact_list, toList_compactItems, List.cons_append, List.append_assoc,
        List.cons.injEq, true_and] at h
      obtain ⟨rfl, rfl⟩ := told_joined (.inl rfl) head?_compact_ne
        (fun j hj k hk => ih j hj (free' k hk)) h
      exact ⟨rfl, rfl⟩
    | _ => simp_all [opens]
  | @object members free ih =>
    intro rest rest' _ _ h
    obtain ⟨c, left, right⟩ := exists_opens _ _ h
    cases free' with
    | @object members' free' =>
      simp only [toList_compact_object, toList_compactMembers, List.cons_append, List.append_assoc,
        List.cons.injEq, true_and] at h
      obtain ⟨rfl, rfl⟩ := told_joined (.inr rfl)
        (fun e => ⟨'"', by simp [spellMember, toList_quote], by decide⟩)
        (fun e he e' he' => told_spellMember (ih e he (free' e' he'))) h
      exact ⟨rfl, rfl⟩
    | _ => simp_all [opens]

theorem FloatFree.compact_inj {j k : Json} (free : j.FloatFree) (free' : k.FloatFree)
    (h : j.compact = k.compact) : j = k := by
  have ends : Terminated [] := by simp [Terminated]
  have text : j.compact.toList ++ [] = k.compact.toList ++ [] := by rw [h]
  exact (free.told free' ends ends text).1

end Json
end DocMarks
