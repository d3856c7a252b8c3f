import DocMarks.Token.Lexer

namespace DocMarks.Token

theorem isPrefix_append {α : Type} {xs ys zs : List α} (h : xs <+: zs)
    (h' : ys <+: zs.drop xs.length) : xs ++ ys <+: zs := by
  obtain ⟨rest, rfl⟩ := h
  rw [List.drop_left] at h'
  exact (List.prefix_append_right_inj xs).2 h'

theorem isPrefix_closing? {cs ds : List Char} (h : closing? cs = some ds) : ds <+: cs := by
  induction cs using closing?.induct generalizing ds with
  | case1 => cases h
  | case2 cs ih =>
    rw [closing?] at h
    obtain ⟨es, hes, rfl⟩ := Option.map_eq_some_iff.1 h
    exact List.cons_prefix_cons.2 ⟨rfl, List.cons_prefix_cons.2 ⟨rfl, ih hes⟩⟩
  | case3 cs _ =>
    rw [closing?] at h
    · cases h
      exact ⟨cs, rfl⟩
    · assumption
  | case4 c cs _ _ ih =>
    rw [closing?] at h
    · obtain ⟨es, hes, rfl⟩ := Option.map_eq_some_iff.1 h
      exact List.cons_prefix_cons.2 ⟨rfl, ih hes⟩
    · assumption
    · assumption

theorem isPrefix_signOf (cs : List Char) : signOf cs <+: cs := by
  cases cs with
  | nil => exact List.prefix_rfl
  | cons c cs =>
    rw [signOf]
    split
    · exact ⟨cs, rfl⟩
    · exact List.nil_prefix

theorem isPrefix_digitsOf (cs : List Char) : digitsOf cs <+: cs := List.takeWhile_prefix _

theorem isPrefix_fractionOf (cs : List Char) : fractionOf cs <+: cs := by
  rw [fractionOf.eq_def]
  split
  · split
    · exact List.nil_prefix
    · exact List.cons_prefix_cons.2 ⟨rfl, isPrefix_digitsOf _⟩
  · exact List.nil_prefix

theorem isPrefix_exponentOf (cs : List Char) : exponentOf cs <+: cs := by
  cases cs with
  | nil => exact List.prefix_rfl
  | cons c cs =>
    rw [exponentOf]
    split
    · apply List.cons_prefix_cons.2
      exact ⟨rfl, isPrefix_append (isPrefix_signOf cs) (isPrefix_digitsOf _)⟩
    · exact List.nil_prefix

theorem isPrefix_number? {cs text : List Char} {kind : Kind} (h : number? cs = some (kind, text)) :
    text <+: cs ∧ text ≠ [] := by
  rw [number?] at h
  have sign := isPrefix_signOf cs
  generalize hrest : cs.drop (signOf cs).length = rest at h
  have whole := isPrefix_digitsOf rest
  simp only at h
  split at h
  case isTrue =>
    split at h
    · cases h
    · rename_i empty point
      simp only [Option.some.injEq, Prod.mk.injEq] at h
      obtain ⟨-, rfl⟩ := h
      simp only [empty, List.length_nil, List.drop_zero] at point ⊢
      refine ⟨isPrefix_append sign ?_, by simp [point]⟩
      rw [hrest]
      exact isPrefix_fractionOf rest
  case isFalse digits =>
    simp only [Option.some.injEq, Prod.mk.injEq] at h
    obtain ⟨-, rfl⟩ := h
    refine ⟨?_, by simp [digits]⟩
    rw [List.append_assoc, List.append_assoc]
    apply isPrefix_append sign
    rw [hrest]
    apply isPrefix_append whole
    exact isPrefix_append (isPrefix_fractionOf _) (isPrefix_exponentOf _)

theorem lexeme_eq_cons (c : Char) (cs : List Char) :
    ∃ kind ds rest, cs = ds ++ rest ∧ lexeme c cs = (kind, c :: ds) := by
  rw [lexeme]
  split
  case isTrue =>
    split
    case h_1 ds h =>
      obtain ⟨rest, rfl⟩ := isPrefix_closing? h
      exact ⟨_, ds, rest, rfl, rfl⟩
    case h_2 => exact ⟨_, cs, [], by simp, rfl⟩
  case isFalse =>
    split
    case isTrue =>
      exact ⟨_, cs.takeWhile isNameRest, cs.dropWhile isNameRest,
        List.takeWhile_append_dropWhile.symm, rfl⟩
    case isFalse =>
      split
      case h_1 number h =>
        obtain ⟨kind, text⟩ := number
        obtain ⟨⟨rest, hrest⟩, nonempty⟩ := isPrefix_number? h
        obtain ⟨d, ds, rfl⟩ := List.exists_cons_of_ne_nil nonempty
        rw [List.cons_append, List.cons.injEq] at hrest
        obtain ⟨rfl, rfl⟩ := hrest
        exact ⟨kind, ds, rest, rfl, rfl⟩
      case h_2 => exact ⟨_, [], cs, rfl, rfl⟩

theorem isGap_iff {c : Char} : isGap c ↔ c ∈ [' ', '\t', '\r', '\n', '\x0c', '*'] := by
  simp [isGap, or_assoc]

theorem scan_nil (p : Nat) : scan p [] = [finishAt p] := rfl

theorem scan_gap {c : Char} (p : Nat) (cs : List Char) (gap : isGap c) :
    scan p (c :: cs) = scan (p + c.utf8Size) cs := by
  rw [scan, scanFrom]
  simp only [gap, if_true]
  rfl

theorem scan_lexeme {c : Char} {ds rest : List Char} {kind : Kind} (p : Nat)
    (gap : isGap c = false) (h : lexeme c (ds ++ rest) = (kind, c :: ds)) :
    scan p (c :: (ds ++ rest)) =
      ⟨kind, String.ofList (c :: ds), ⟨p, p + Text.width (c :: ds)⟩⟩ ::
        scan (p + Text.width (c :: ds)) rest := by
  rw [scan, scanFrom]
  simp only [gap, h, Bool.false_eq_true, if_false, List.length_cons, Nat.add_sub_cancel]
  rw [scanFrom_skip, List.take_left, List.drop_left, Nat.add_assoc]
  rfl

theorem scan_single {c : Char} {cs : List Char} {kind : Kind} (p : Nat) (gap : isGap c = false)
    (h : lexeme c cs = (kind, [c])) :
    scan p (c :: cs) =
      ⟨kind, String.ofList [c], ⟨p, p + c.utf8Size⟩⟩ :: scan (p + c.utf8Size) cs := by
  simpa using @scan_lexeme c [] cs kind p gap h

theorem scan_induction {motive : Nat → List Char → List Token → Prop}
    (nil : ∀ p, motive p [] [finishAt p])
    (gap : ∀ p c cs ts, isGap c → motive (p + c.utf8Size) cs ts → motive p (c :: cs) ts)
    (token : ∀ p c ds rest kind ts, isGap c = false → lexeme c (ds ++ rest) = (kind, c :: ds) →
      motive (p + Text.width (c :: ds)) rest ts →
      motive p (c :: (ds ++ rest))
        (⟨kind, String.ofList (c :: ds), ⟨p, p + Text.width (c :: ds)⟩⟩ :: ts))
    (p : Nat) (cs : List Char) : motive p cs (scan p cs) := by
  -- a lexeme takes several characters at once, so the induction is on the length
  induction hn : cs.length using Nat.strongRecOn generalizing p cs with
  | ind n ih =>
    subst hn
    cases cs with
    | nil => exact nil p
    | cons c cs =>
      cases hg : isGap c with
      | true =>
        rw [scan_gap p cs hg]
        exact gap p c cs _ hg (ih cs.length (by simp) _ cs rfl)
      | false =>
        obtain ⟨kind, ds, rest, rfl, h⟩ := lexeme_eq_cons c cs
        rw [scan_lexeme p hg h]
        have shorter : rest.length < (c :: (ds ++ rest)).length := by
          rw [List.length_cons, List.length_append]
          omega
        exact token p c ds rest kind _ hg h (ih rest.length shorter _ rest rfl)

end DocMarks.Token
