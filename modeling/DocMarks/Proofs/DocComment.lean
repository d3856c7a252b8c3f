import DocMarks.DocComment

namespace DocMarks.DocComment

inductive Closed : List Char → Prop
  | nil : Closed []
  | other {c cs} : startOf (c :: cs) = .other → Closed cs → Closed (c :: cs)
  | emptyComment {cs} : Closed cs → Closed ('/' :: '*' :: '*' :: '/' :: cs)
  | comment {text rest} : startOf (text ++ rest) = .comment text → Closed rest →
      Closed (text ++ rest)

variable {c : Char} {cs rest text : List Char} {position line : Nat}

theorem closing?_append (h : closing? cs = some text) (ds : List Char) :
    closing? (cs ++ ds) = some text := by
  fun_induction closing? cs generalizing text with
  | case1 => cases h
  | case2 cs =>
    cases h
    rfl
  | case3 c cs other ih =>
    obtain ⟨rest, found, rfl⟩ := Option.map_eq_some_iff.1 h
    rw [List.cons_append, closing?, ih found, Option.map_some]
    rintro tail rfl
    cases cs with
    | nil => cases found
    | cons d cs =>
      rintro ⟨⟩
      exact other cs rfl rfl

theorem isPrefix_closing? (h : closing? cs = some text) : text <+: cs := by
  fun_induction closing? cs generalizing text with
  | case1 => cases h
  | case2 cs =>
    cases h
    exact ⟨cs, rfl⟩
  | case3 c cs other ih =>
    obtain ⟨rest, found, rfl⟩ := Option.map_eq_some_iff.1 h
    exact (List.prefix_cons_inj c).2 (ih found)

theorem startOf_append (h : startOf cs ≠ .unclosed) (ds : List Char) :
    startOf (cs ++ '\n' :: ds) = startOf cs := by
  fun_cases startOf cs with
  | case1 cs => rfl
  | case2 cs other none => exact absurd (by rw [startOf, none]; exact other) h
  | case3 cs other rest closed =>
    rw [List.cons_append, List.cons_append, List.cons_append, startOf, closing?_append closed]
    intro tail same
    cases cs with
    | nil => cases closed
    | cons d cs =>
      cases same
      exact other cs rfl
  | case4 cs _ other =>
    have other' : ∀ tail, cs ++ '\n' :: ds ≠ '/' :: '*' :: '*' :: tail := by
      rcases cs with _ | ⟨a, _ | ⟨b, _ | ⟨c, cs⟩⟩⟩
      · simp
      · simp
      · simp
      · intro tail same
        simp only [List.cons_append, List.cons.injEq] at same
        exact other cs (by rw [same.1, same.2.1, same.2.2.1])
    rw [startOf]
    · exact fun tail => other' _
    · exact other'

theorem startOf_eq_comment (h : startOf cs = .comment text) :
    0 < text.length ∧ ∃ rest, cs = text ++ rest := by
  revert h
  fun_cases startOf cs with
  | case1 cs => rintro ⟨⟩
  | case2 cs other none => rintro ⟨⟩
  | case3 cs other body closed =>
    rintro ⟨⟩
    obtain ⟨rest, rfl⟩ := isPrefix_closing? closed
    exact ⟨by simp, rest, rfl⟩
  | case4 cs _ other => rintro ⟨⟩

theorem startOf_eq_emptyComment (h : startOf cs = .emptyComment) :
    ∃ rest, cs = '/' :: '*' :: '*' :: '/' :: rest := by
  revert h
  fun_cases startOf cs with
  | case1 cs => exact fun _ => ⟨cs, rfl⟩
  | case2 cs other none => rintro ⟨⟩
  | case3 cs other body closed => rintro ⟨⟩
  | case4 cs _ other => rintro ⟨⟩

theorem search_induction {motive : List Char → Prop} (nil : motive [])
    (other : ∀ c cs, startOf (c :: cs) = .other → motive cs → motive (c :: cs))
    (emptyComment : ∀ cs, motive cs → motive ('/' :: '*' :: '*' :: '/' :: cs))
    (unclosed : ∀ cs, startOf cs = .unclosed → motive cs)
    (comment : ∀ text rest, startOf (text ++ rest) = .comment text → motive rest →
      motive (text ++ rest)) (cs : List Char) : motive cs := by
  induction n : cs.length using Nat.strongRecOn generalizing cs with
  | ind n ih =>
    subst n
    rcases cs with _ | ⟨c, cs⟩
    · exact nil
    cases start : startOf (c :: cs) with
    | other => exact other c cs start (ih cs.length (by simp) cs rfl)
    | emptyComment =>
      obtain ⟨rest, same⟩ := startOf_eq_emptyComment start
      cases same
      exact emptyComment rest (ih rest.length (by simp; omega) rest rfl)
    | unclosed => exact unclosed (c :: cs) start
    | comment text =>
      obtain ⟨nonempty, rest, same⟩ := startOf_eq_comment start
      rw [same] at start ⊢
      exact comment text rest start (ih rest.length (by simp [same, nonempty]) rest rfl)

def closes (skip : Nat) : List Char → Bool
  | [] => true
  | c :: cs =>
    match skip with
    | skip + 1 => closes skip cs
    | 0 =>
      match startOf (c :: cs) with
      | .other => closes 0 cs
      | .emptyComment => closes 3 cs
      | .unclosed => false
      | .comment text => closes (text.length - 1) cs

theorem closes_skip (skip : Nat) (cs : List Char) : closes skip cs = closes 0 (cs.drop skip) := by
  induction cs generalizing skip with
  | nil => simp [closes]
  | cons c cs ih =>
    cases skip with
    | zero => rfl
    | succ skip => rw [closes, ih, List.drop_succ_cons]

theorem closes_comment (h : startOf (text ++ rest) = .comment text) :
    closes 0 (text ++ rest) = closes 0 rest := by
  obtain ⟨c, cs, rfl⟩ := List.exists_cons_of_length_pos (startOf_eq_comment h).1
  rw [List.cons_append] at h ⊢
  rw [closes, h]
  simp only [List.length_cons, Nat.add_sub_cancel]
  rw [closes_skip, List.drop_left]

theorem closed_iff_closes : Closed cs ↔ closes 0 cs := by
  constructor
  · intro h
    induction h with
    | nil => rfl
    | other start _ ih => rwa [closes, start]
    | emptyComment _ ih => exact ih
    | comment start _ ih => rwa [closes_comment start]
  · intro h
    induction cs using search_induction with
    | nil => exact .nil
    | other c cs start ih =>
      rw [closes, start] at h
      exact .other start (ih h)
    | emptyComment cs ih => exact .emptyComment (ih h)
    | unclosed cs start =>
      cases cs with
      | nil => exact .nil
      | cons c cs => simp [closes, start] at h
    | comment text rest start ih =>
      rw [closes_comment start] at h
      exact .comment start (ih h)

instance (cs : List Char) : Decidable (Closed cs) := decidable_of_iff' _ closed_iff_closes

theorem lineAfter_add_count (line : Nat) (c : Char) (cs : List Char) :
    lineAfter line c + cs.count '\n' = line + (c :: cs).count '\n' := by
  rw [lineAfter, List.count_cons]
  split
  case isTrue h =>
    simp only [h, beq_self_eq_true, if_true]
    omega
  case isFalse h => simp only [beq_eq_false_iff_ne.2 h, Bool.false_eq_true, if_false, Nat.add_zero]

theorem foldl_lineAfter (line : Nat) (cs : List Char) :
    cs.foldl lineAfter line = line + cs.count '\n' := by
  induction cs generalizing line with
  | nil => rfl
  | cons c cs ih => rw [List.foldl_cons, ih, lineAfter_add_count]

theorem findFrom_other (h : startOf (c :: cs) = .other) :
    findFrom 0 position line (c :: cs) =
      findFrom 0 (position + c.utf8Size) (lineAfter line c) cs := by
  rw [findFrom, h]

theorem findFrom_emptyComment :
    findFrom 0 position line ('/' :: '*' :: '*' :: '/' :: cs) =
      findFrom 0 (position + 4) line cs := by
  rw [findFrom, startOf, findFrom_skip]
  rfl

theorem findFrom_comment (h : startOf (text ++ rest) = .comment text) :
    findFrom 0 position line (text ++ rest) =
      ⟨String.ofList text, ⟨position, position + Text.width text⟩, line⟩ ::
        findFrom 0 (position + Text.width text) (line + text.count '\n') rest := by
  obtain ⟨c, cs, rfl⟩ := List.exists_cons_of_length_pos (startOf_eq_comment h).1
  rw [List.cons_append] at h ⊢
  rw [findFrom, h]
  simp only [List.length_cons, Nat.add_sub_cancel]
  rw [findFrom_skip, List.take_left, List.drop_left, foldl_lineAfter, lineAfter_add_count,
    Text.width_cons, Nat.add_assoc]

theorem Closed.findFrom_append (h : Closed cs) (ds : List Char) (position line : Nat) :
    findFrom 0 position line (cs ++ '\n' :: ds) =
      findFrom 0 position line cs ++
        findFrom 0 (position + Text.width cs + 1) (line + cs.count '\n' + 1) ds := by
  induction h generalizing position line with
  | nil => exact findFrom_other rfl
  | @other c cs start _ ih =>
    have start' : startOf (c :: cs ++ '\n' :: ds) = .other := by
      rw [startOf_append (by simp [start]), start]
    rw [List.cons_append] at start' ⊢
    rw [findFrom_other start', findFrom_other start, ih, Text.width_cons, lineAfter_add_count,
      Nat.add_assoc position]
  | @emptyComment cs _ ih =>
    have width : Text.width ('/' :: '*' :: '*' :: '/' :: cs) = 4 + Text.width cs :=
      Text.width_append ['/', '*', '*', '/'] cs
    have lines : ('/' :: '*' :: '*' :: '/' :: cs).count '\n' = cs.count '\n' := by simp
    rw [width, lines, ← Nat.add_assoc, findFrom_emptyComment, ← ih]
    exact findFrom_emptyComment
  | @comment text rest start _ ih =>
    have start' : startOf (text ++ rest ++ '\n' :: ds) = .comment text := by
      rw [startOf_append (by simp [start]), start]
    rw [List.append_assoc] at start' ⊢
    rw [findFrom_comment start', findFrom_comment start, ih, Text.width_append, List.count_append,
      List.cons_append, Nat.add_assoc position, Nat.add_assoc line]

def moved (c : DocComment) (bytes lines : Nat) : DocComment :=
  { c with span := c.span.shift bytes, line := c.line + lines }

theorem lineAfter_add (line lines : Nat) (c : Char) :
    lineAfter (line + lines) c = lineAfter line c + lines := by
  rw [lineAfter, lineAfter]
  split
  · omega
  · rfl

theorem findFrom_moved (skip position line bytes lines : Nat) (cs : List Char) :
    findFrom skip (position + bytes) (line + lines) cs =
      (findFrom skip position line cs).map (·.moved bytes lines) := by
  induction cs generalizing skip position line with
  | nil => rfl
  | cons c cs ih =>
    have next : position + bytes + c.utf8Size = position + c.utf8Size + bytes := by omega
    cases skip with
    | succ skip => rw [findFrom, findFrom, next, lineAfter_add, ih]
    | zero =>
      simp only [findFrom, next, lineAfter_add, ih]
      cases startOf (c :: cs) with
      | other => rfl
      | emptyComment => rfl
      | unclosed => rfl
      | comment text =>
        simp only [List.map_cons, moved, Span.shift, Nat.add_right_comm]

theorem findAll_append {source : String} (h : Closed source.toList) (more : String) :
    findAll (source ++ "\n" ++ more) =
      findAll source ++
        (findAll more).map
          (·.moved (1 + Text.width source.toList) (1 + source.toList.count '\n')) := by
  have text : (source ++ "\n" ++ more).toList = source.toList ++ '\n' :: more.toList := by simp
  rw [findAll, text, h.findFrom_append, findAll, findAll, ← findFrom_moved]
  congr 2
  · omega
  · omega

end DocMarks.DocComment
