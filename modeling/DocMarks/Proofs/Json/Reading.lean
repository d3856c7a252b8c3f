import DocMarks.Json.Decode
import DocMarks.Proofs.Entries
import DocMarks.Proofs.Json.Compact

namespace DocMarks.Json

mutual

def raw : Json → Raw
  | .null => .null
  | .bool b => .bool b
  | .string s => .string (s.toList.map some)
  | .list items => .list (rawItems items)
  | .object members => .object (rawMembers members)
  | j => .number j.leaf.toList
termination_by structural j => j

def rawItems : List Json → List Raw
  | [] => []
  | j :: rest => j.raw :: rawItems rest
termination_by structural items => items

def rawMembers : List (String × Json) → List (Units × Raw)
  | [] => []
  | (k, j) :: rest => (k.toList.map some, j.raw) :: rawMembers rest
termination_by structural members => members

end

theorem rawItems_eq (items : List Json) : rawItems items = items.map raw :=
  eq_map_of_cons rfl (fun _ _ => rfl) items

theorem rawMembers_eq (members : List (String × Json)) :
    rawMembers members = members.map fun e => (e.1.toList.map some, e.2.raw) :=
  eq_map_of_cons rfl (fun _ _ => rfl) members

inductive Worded : Json → Prop
  | null : Worded .null
  | bool (b : Bool) : Worded (.bool b)
  | string (s : String) : Worded (.string s)
  | list {items : List Json} : (∀ j ∈ items, Worded j) → Worded (.list items)
  | object {members : List (String × Json)} : (∀ e ∈ members, Worded e.2) →
      Worded (.object members)

namespace Raw

theorem skip_cons {c : Char} (cs : List Char) (h : isSpace c = false) : skip (c :: cs) = c :: cs := by
  rw [skip, List.dropWhile_cons_of_neg (by rw [h]; exact Bool.false_ne_true)]

variable {fuel : Nat} {cs rest : List Char} {r : Raw}

theorem items?_close (h : value? fuel cs = some (r, ']' :: rest)) :
    items? (fuel + 1) cs = some ([r], rest) := by
  rw [items?, h]
  rfl

theorem items?_comma (h : value? fuel cs = some (r, ',' :: rest)) :
    items? (fuel + 1) cs = (items? fuel rest).map fun (rs, cs) => (r :: rs, cs) := by
  rw [items?, h]
  change (items? fuel rest >>= fun (rs, cs) => pure (r :: rs, cs)) = _
  cases items? fuel rest <;> rfl

theorem string?_quote (k : String) (rest : List Char) :
    ∃ cs, (quote k).toList ++ rest = '"' :: cs ∧ string? cs = some (k.toList.map some, rest) := by
  refine ⟨k.toList.flatMap escape ++ '"' :: rest, ?_, string?_escape k.toList rest⟩
  rw [toList_quote]
  simp

theorem members?_close {k : String} (h : value? fuel cs = some (r, '\x7d' :: rest)) :
    members? (fuel + 1) ((quote k).toList ++ ':' :: cs) = some ([(k.toList.map some, r)], rest) := by
  obtain ⟨ds, written, read⟩ := string?_quote k (':' :: cs)
  have colon : isSpace ':' = false := rfl
  rw [written, members?, skip_cons _ rfl]
  simp only [read, Option.bind_eq_bind, Option.bind_some, skip_cons cs colon, h]
  rfl

theorem members?_comma {k : String} (h : value? fuel cs = some (r, ',' :: rest)) :
    members? (fuel + 1) ((quote k).toList ++ ':' :: cs) =
      (members? fuel rest).map fun (ms, cs) => ((k.toList.map some, r) :: ms, cs) := by
  obtain ⟨ds, written, read⟩ := string?_quote k (':' :: cs)
  have colon : isSpace ':' = false := rfl
  rw [written, members?, skip_cons _ rfl]
  simp only [read, Option.bind_eq_bind, Option.bind_some, skip_cons cs colon, h]
  change (members? fuel rest >>= fun (ms, cs) => pure ((k.toList.map some, r) :: ms, cs)) = _
  cases members? fuel rest <;> rfl

def ReadsBack (j : Json) : Prop :=
  ∀ {fuel : Nat} {rest : List Char}, 2 * j.compact.toList.length < fuel →
    value? fuel (j.compact.toList ++ rest) = some (j.raw, rest)

theorem items?_joined {j : Json} {items : List Json} (reads : ∀ k ∈ j :: items, ReadsBack k)
    (enough : 2 * (joined (·.compact.toList) (j :: items)).length < fuel) :
    items? (fuel + 1) (joined (·.compact.toList) (j :: items) ++ ']' :: rest) =
      some ((j :: items).map raw, rest) := by
  induction items generalizing j fuel with
  | nil =>
    rw [List.forall_mem_singleton] at reads
    simp only [joined, List.flatMap_nil, List.append_nil] at enough ⊢
    rw [items?_close (reads enough)]
    rfl
  | cons k items ih =>
    rw [List.forall_mem_cons] at reads
    have split : joined (·.compact.toList) (j :: k :: items) =
        j.compact.toList ++ ',' :: joined (·.compact.toList) (k :: items) := by simp [joined]
    rw [split, List.length_append, List.length_cons] at enough
    obtain ⟨fuel, rfl⟩ : ∃ n, fuel = n + 1 := ⟨fuel - 1, by omega⟩
    rw [split, List.append_assoc, List.cons_append, items?_comma (reads.1 (by omega)),
      ih reads.2 (by omega)]
    rfl

theorem members?_joined {e : String × Json} {members : List (String × Json)}
    (reads : ∀ e' ∈ e :: members, ReadsBack e'.2)
    (enough : 2 * (joined spellMember (e :: members)).length < fuel) :
    members? (fuel + 1) (joined spellMember (e :: members) ++ '\x7d' :: rest) =
      some ((e :: members).map fun e => (e.1.toList.map some, e.2.raw), rest) := by
  induction members generalizing e fuel with
  | nil =>
    rw [List.forall_mem_singleton] at reads
    simp only [joined, spellMember, List.flatMap_nil, List.append_nil, List.append_assoc,
      List.cons_append, List.length_append, List.length_cons] at enough ⊢
    rw [members?_close (reads (by omega))]
    rfl
  | cons e' members ih =>
    rw [List.forall_mem_cons] at reads
    have split : joined spellMember (e :: e' :: members) =
        spellMember e ++ ',' :: joined spellMember (e' :: members) := by simp [joined]
    rw [split, spellMember, List.length_append, List.length_append, List.length_cons,
      List.length_cons] at enough
    obtain ⟨fuel, rfl⟩ : ∃ n, fuel = n + 1 := ⟨fuel - 1, by omega⟩
    rw [split, spellMember, List.append_assoc, List.append_assoc, List.cons_append,
      List.cons_append, members?_comma (reads.1 (by omega)), ih reads.2 (by omega)]
    rfl

theorem head?_compact_of_worded {j : Json} (h : j.Worded) :
    ∃ c, j.compact.toList.head? = some c ∧ isSpace c = false ∧ c ≠ ']' := by
  obtain ⟨c, first, opens⟩ := opens_compact j
  have word : c = 'n' ∨ c = 't' ∨ c = 'f' ∨ c = '"' ∨ c = '[' ∨ c = '\x7b' := by
    cases h <;> grind [Json.opens]
  exact ⟨c, first, by rcases word with rfl | rfl | rfl | rfl | rfl | rfl <;> decide⟩

theorem value?_list {c : Char} (first : cs.head? = some c) (dark : isSpace c = false)
    (closing : c ≠ ']') :
    value? (fuel + 1) ('[' :: cs) = (items? fuel cs).map fun (rs, cs) => (.list rs, cs) := by
  obtain ⟨cs, rfl⟩ := List.head?_eq_some_iff.1 first
  rw [value?, skip_cons _ rfl]
  simp only [skip_cons cs dark]
  split
  case h_1 h => cases h; exact absurd rfl closing
  case h_2 => rfl

theorem value?_object {c : Char} (first : cs.head? = some c) (dark : isSpace c = false)
    (closing : c ≠ '\x7d') :
    value? (fuel + 1) ('\x7b' :: cs) = (members? fuel cs).map fun (ms, cs) => (.object ms, cs) := by
  obtain ⟨cs, rfl⟩ := List.head?_eq_some_iff.1 first
  rw [value?, skip_cons _ rfl]
  simp only [skip_cons cs dark]
  split
  case h_1 h => cases h; exact absurd rfl closing
  case h_2 => rfl

theorem readsBack_of_worded {j : Json} (h : j.Worded) : ReadsBack j := by
  induction h with
  | null =>
    intro fuel rest enough
    obtain ⟨fuel, rfl⟩ : ∃ n, fuel = n + 1 := ⟨fuel - 1, by omega⟩
    rfl
  | bool b =>
    intro fuel rest enough
    obtain ⟨fuel, rfl⟩ : ∃ n, fuel = n + 1 := ⟨fuel - 1, by omega⟩
    cases b <;> rfl
  | string s =>
    intro fuel rest enough
    obtain ⟨fuel, rfl⟩ : ∃ n, fuel = n + 1 := ⟨fuel - 1, by omega⟩
    obtain ⟨cs, written, read⟩ := string?_quote s rest
    change value? (fuel + 1) ((quote s).toList ++ rest) = _
    rw [written, value?, skip_cons _ rfl]
    simp only [read]
    rfl
  | @list items worded ih =>
    intro fuel rest enough
    rw [toList_compact_list, toList_compactItems] at enough ⊢
    simp only [List.length_cons, List.length_append] at enough
    obtain ⟨fuel, rfl⟩ : ∃ n, fuel = n + 2 := ⟨fuel - 2, by omega⟩
    rw [raw, rawItems_eq, List.cons_append, List.append_assoc, List.singleton_append]
    cases items with
    | nil => rfl
    | cons j items =>
      obtain ⟨c, first, dark, closing⟩ := head?_compact_of_worded (worded j (.head _))
      have head : (joined (·.compact.toList) (j :: items) ++ ']' :: rest).head? = some c := by
        simp [joined, first]
      rw [value?_list head dark closing, items?_joined ih (by omega)]
      rfl
  | @object members _ ih =>
    intro fuel rest enough
    rw [toList_compact_object, toList_compactMembers] at enough ⊢
    simp only [List.length_cons, List.length_append] at enough
    obtain ⟨fuel, rfl⟩ : ∃ n, fuel = n + 2 := ⟨fuel - 2, by omega⟩
    rw [raw, rawMembers_eq, List.cons_append, List.append_assoc, List.singleton_append]
    cases members with
    | nil => rfl
    | cons e members =>
      have head : (joined spellMember (e :: members) ++ '\x7d' :: rest).head? = some '"' := by
        simp [joined, spellMember, toList_quote]
      rw [value?_object head rfl (by decide), members?_joined ih (by omega)]
      rfl

end Raw

theorem Worded.ofText?_compact {j : Json} (h : j.Worded) : Raw.ofText? j.compact = some j.raw := by
  have read := @Raw.readsBack_of_worded j h (2 * j.compact.toList.length + 2) [] (by omega)
  rw [List.append_nil] at read
  rw [Raw.ofText?]
  simp only [read]
  rfl

end DocMarks.Json
