import DocMarks.Region

namespace DocMarks

namespace Text

variable {p : Char → Bool} {cs ds : List Char}

theorem eq_trimEnd_append (p : Char → Bool) (cs : List Char) :
    ∃ after, cs = trimEnd p cs ++ after ∧ ∀ c ∈ after, p c := by
  refine ⟨(cs.reverse.takeWhile p).reverse, ?_, ?_⟩
  · rw [trimEnd, ← List.reverse_append, List.takeWhile_append_dropWhile, List.reverse_reverse]
  · intro c hc
    exact List.all_eq_true.1 List.all_takeWhile c (List.mem_reverse.1 hc)

theorem trimEnd_append_of_all (h : ∀ c ∈ ds, p c) : trimEnd p (cs ++ ds) = trimEnd p cs := by
  rw [trimEnd, trimEnd, List.reverse_append, List.dropWhile_append_of_pos]
  intro c hc
  exact h c (List.mem_reverse.1 hc)

theorem trimEnd_append_of_ne_nil (h : trimEnd p ds ≠ []) :
    trimEnd p (cs ++ ds) = cs ++ trimEnd p ds := by
  rw [trimEnd] at h ⊢
  rw [trimEnd, List.reverse_append, List.dropWhile_append]
  have kept : (ds.reverse.dropWhile p).isEmpty = false := by
    rw [List.isEmpty_eq_false_iff]
    exact fun empty => h (by rw [empty]; rfl)
  simp [kept]

theorem trimEnd_cons_of_neg {c : Char} (h : ¬ p c) : trimEnd p (c :: cs) = c :: trimEnd p cs := by
  by_cases empty : trimEnd p cs = []
  · obtain ⟨after, split, all⟩ := eq_trimEnd_append p cs
    rw [empty, List.nil_append] at split
    rw [empty, split, ← List.singleton_append, trimEnd_append_of_all all]
    simp [trimEnd, h]
  · rw [← List.singleton_append, trimEnd_append_of_ne_nil empty, List.singleton_append]

end Text

namespace Region

variable {p : Nat} {opened : Bool} {cs ds : List Char}

def shift (r : Region) (n : Nat) : Region := ⟨r.start + n, r.text⟩

def opensAfter (opened : Bool) (cs : List Char) : Bool := cs.foldl (fun _ c => opens c) opened

theorem opensAfter_of_getLast? {c : Char} (h : cs.getLast? = some c) :
    opensAfter opened cs = opens c := by
  obtain ⟨ds, rfl⟩ := List.getLast?_eq_some_iff.1 h
  rw [opensAfter, List.foldl_append]
  rfl

theorem opensAfter_eq_true (h : ∀ c ∈ cs.getLast?, opens c) : opensAfter true cs := by
  cases hc : cs.getLast? with
  | none =>
    rw [List.getLast?_eq_none_iff.1 hc]
    rfl
  | some c =>
    rw [opensAfter_of_getLast? hc]
    exact h c hc

theorem openFrom?_eq {r : Region} (h : openFrom? p opened cs = some r) :
    ∃ before, cs = before ++ r.text ∧ r.start = p + Text.width before := by
  induction cs generalizing p opened with
  | nil => cases h
  | cons c cs ih =>
    rw [openFrom?] at h
    split at h
    case isTrue =>
      cases h
      exact ⟨[], rfl, rfl⟩
    case isFalse =>
      obtain ⟨before, rfl, start⟩ := ih h
      refine ⟨c :: before, rfl, ?_⟩
      rw [start, Text.width_cons, Nat.add_assoc]

theorem openFrom?_append :
    openFrom? p opened (cs ++ ds) =
      match openFrom? p opened cs with
      | some r => some ⟨r.start, r.text ++ ds⟩
      | none => openFrom? (p + Text.width cs) (opensAfter opened cs) ds := by
  induction cs generalizing p opened with
  | nil => rfl
  | cons c cs ih =>
    rw [List.cons_append, openFrom?, openFrom?]
    split
    case isTrue => rfl
    case isFalse =>
      rw [ih, Text.width_cons, Nat.add_assoc]
      rfl

theorem openFrom?_eq_none (h : '@' ∉ cs) : openFrom? p opened cs = none := by
  induction cs generalizing p opened with
  | nil => rfl
  | cons c cs ih =>
    rw [List.mem_cons, not_or] at h
    have other : (c == '@') = false := beq_eq_false_iff_ne.2 (Ne.symm h.1)
    rw [openFrom?, other, ih h.2]
    rfl

theorem openFrom?_shift (p n : Nat) (opened : Bool) (cs : List Char) :
    openFrom? (p + n) opened cs = (openFrom? p opened cs).map (shift · n) := by
  induction cs generalizing p opened with
  | nil => rfl
  | cons c cs ih =>
    rw [openFrom?, openFrom?]
    split
    case isTrue => rfl
    case isFalse => rw [← ih, Nat.add_right_comm]

theorem openFrom?_of_head? {opened' : Bool} (h : cs.head? = some '@' → opened = opened') :
    openFrom? p opened cs = openFrom? p opened' cs := by
  cases cs with
  | nil => rfl
  | cons c cs =>
    rw [openFrom?, openFrom?]
    by_cases hc : c = '@'
    · rw [h (by rw [hc]; rfl)]
    · simp [hc]

theorem ofBody?_eq {body : String} {r : Region} (h : ofBody? body = some r) :
    ∃ before after, body.toList = before ++ r.text ++ after ∧ r.start = Text.width before := by
  obtain ⟨opened, open?, rfl⟩ := Option.map_eq_some_iff.1 h
  obtain ⟨before, hbody, start⟩ := openFrom?_eq open?
  obtain ⟨after, htext, -⟩ := Text.eq_trimEnd_append isDecoration opened.text
  refine ⟨before, after, ?_, by rw [start, Nat.zero_add]⟩
  rw [hbody, List.append_assoc, ← htext]

theorem ofChars?_framed {before after : List Char} (plain : '@' ∉ before)
    (boundary : cs.head? = some '@' → ∀ c ∈ before.getLast?, opens c)
    (decoration : ∀ c ∈ after, isDecoration c) :
    ofChars? (before ++ (cs ++ after)) = (ofChars? cs).map (shift · (Text.width before)) := by
  have sign : '@' ∉ after := by
    intro h
    exact absurd (decoration '@' h) (by decide)
  have front : openFrom? 0 true (before ++ (cs ++ after)) =
      (openFrom? 0 true (cs ++ after)).map (shift · (Text.width before)) := by
    rw [openFrom?_append, openFrom?_eq_none plain, ← openFrom?_shift]
    apply openFrom?_of_head?
    intro head
    cases cs with
    | nil => exact absurd (List.mem_of_head? head) sign
    | cons c cs => exact opensAfter_eq_true (boundary head)
  rw [ofChars?, ofChars?, front, openFrom?_append]
  cases openFrom? 0 true cs with
  | none => simp [openFrom?_eq_none sign]
  | some r => simp [shift, Text.trimEnd_append_of_all decoration]

theorem ofChars?_of_head? (h : cs.head? = some '@') :
    ofChars? cs = some ⟨0, Text.trimEnd isDecoration cs⟩ := by
  obtain ⟨ds, rfl⟩ := List.head?_eq_some_iff.1 h
  rfl

theorem ofChars?_append_of_none {c : Char} (h : ofChars? cs = none) (plain : '@' ∉ ds)
    (last : ds.getLast? = some c) (hc : opens c) (rest : List Char) :
    ofChars? (cs ++ (ds ++ rest)) = (ofChars? rest).map (shift · (Text.width (cs ++ ds))) := by
  rw [ofChars?, Option.map_eq_none_iff] at h
  rw [ofChars?, ofChars?, openFrom?_append, h]
  simp only [openFrom?_append, openFrom?_eq_none plain, opensAfter_of_getLast? last, hc]
  rw [Nat.add_assoc, ← Text.width_append, openFrom?_shift, Option.map_map, Option.map_map]
  rfl

theorem head?_trimEnd (h : cs.head? = some '@') :
    (Text.trimEnd isDecoration cs).head? = some '@' := by
  obtain ⟨ds, rfl⟩ := List.head?_eq_some_iff.1 h
  rw [Text.trimEnd_cons_of_neg (by decide)]
  rfl

theorem ofChars?_append_of_some {r : Region} {rest : List Char} (h : ofChars? cs = some r)
    (ds : List Char) (sign : rest.head? = some '@') :
    ∃ after, (∀ c ∈ after, isDecoration c) ∧
      r.start + Text.width r.text + Text.width after = Text.width cs ∧
      ofChars? (cs ++ (ds ++ rest)) =
        some ⟨r.start, r.text ++ (after ++ (ds ++ Text.trimEnd isDecoration rest))⟩ := by
  obtain ⟨opened, open?, rfl⟩ := Option.map_eq_some_iff.1 h
  obtain ⟨before, rfl, start⟩ := openFrom?_eq open?
  obtain ⟨after, split, decoration⟩ := Text.eq_trimEnd_append isDecoration opened.text
  have kept : Text.trimEnd isDecoration rest ≠ [] := by
    intro empty
    simpa [empty] using head?_trimEnd sign
  refine ⟨after, decoration, ?_, ?_⟩
  · have width := congrArg Text.width split
    rw [Text.width_append] at width ⊢
    simp only
    omega
  · have trimmed : Text.trimEnd isDecoration (opened.text ++ (ds ++ rest)) =
        opened.text ++ (ds ++ Text.trimEnd isDecoration rest) := by
      rw [← List.append_assoc, Text.trimEnd_append_of_ne_nil kept, List.append_assoc]
    rw [ofChars?, openFrom?_append, open?]
    simp only [Option.map_some, trimmed]
    rw [← List.append_assoc _ after, ← split]

end Region
end DocMarks
