import DocMarks.Proofs.Entries
import DocMarks.Proofs.Grammar.Derivation

namespace DocMarks

namespace Table

inductive Built : Table → Prop
  | empty : Built {}
  | insert {t : Table} (k : Key) (v : Value) : Built t → Built (t.insert k v)

theorem Built.push {t : Table} (v : Value) (h : t.Built) : (t.push v).Built := h.insert t.nextKey v

theorem toInt_max (i j : Int64) : (max i j).toInt = max i.toInt j.toInt := by
  change (if i ≤ j then j else i).toInt = _
  split
  case isTrue h =>
    rw [Int64.le_iff_toInt_le] at h
    omega
  case isFalse h =>
    rw [Int64.le_iff_toInt_le] at h
    omega

theorem toInt_after (i : Int64) : (after i).toInt = min (i.toInt + 1) Int64.maxValue.toInt := by
  have high := i.toInt_le
  have low := i.le_toInt
  rw [after]
  split
  case isTrue h =>
    rw [h]
    rfl
  case isFalse h =>
    have := mt Int64.toInt_inj.1 h
    rw [Int64.toInt_maxValue] at *
    rw [Int64.toInt_add, show Int64.toInt 1 = 1 from rfl, Int.bmod_eq_of_le]
    · omega
    · omega
    · omega

def pass (next : Int64) : Key → Int64
  | .int i => max next (after i)
  | .string _ => next

theorem nextIndex_insert (t : Table) (k : Key) (v : Value) :
    (t.insert k v).nextIndex = pass t.nextIndex k := by
  cases k <;> rfl

theorem le_pass (next : Int64) (k : Key) : next.toInt ≤ (pass next k).toInt := by
  cases k with
  | int i =>
    rw [pass, toInt_max]
    omega
  | string s => exact Int.le_refl _

theorem le_foldl_pass (ks : List Key) (next : Int64) : next.toInt ≤ (ks.foldl pass next).toInt := by
  induction ks generalizing next with
  | nil => exact Int.le_refl _
  | cons k ks ih => exact Int.le_trans (le_pass next k) (ih _)

theorem pass_foldl_of_mem {ks : List Key} {k : Key} (next : Int64) (h : k ∈ ks) :
    pass (ks.foldl pass next) k = ks.foldl pass next := by
  induction h generalizing next with
  | head ks =>
    have passed := le_foldl_pass ks (pass next k)
    cases k with
    | int i =>
      rw [List.foldl_cons, ← Int64.toInt_inj, pass, toInt_max]
      rw [pass, toInt_max] at passed
      rw [pass]
      omega
    | string s => rfl
  | tail _ _ ih => exact ih _

theorem Built.keys_nextIndex {t : Table} (h : t.Built) :
    t.keys.Nodup ∧ t.nextIndex = t.keys.foldl pass 0 := by
  induction h with
  | empty => exact ⟨.nil, rfl⟩
  | @insert t k v _ ih =>
    refine ⟨Entries.nodup_keys_put k v ih.1, ?_⟩
    rw [nextIndex_insert, keys_insert, ih.2]
    split
    case isTrue old => exact pass_foldl_of_mem 0 old
    case isFalse => rw [List.foldl_append, List.foldl_cons, List.foldl_nil]

def keyed (es : List (Key × Value)) : List (Option Key × Value) := es.map fun e => (some e.1, e.2)

def unkeyed (es : List (Key × Value)) : List (Option Key × Value) := es.map fun e => (none, e.2)

def items (t : Table) : List (Option Key × Value) :=
  if t.isList then unkeyed t.entries else keyed t.entries

theorem writeAll_keyed (es : List (Key × Value)) (t : Table)
    (nodup : (Entries.keys (t.entries ++ es)).Nodup) :
    t.writeAll (keyed es) = ⟨t.entries ++ es, (Entries.keys es).foldl pass t.nextIndex⟩ := by
  induction es generalizing t with
  | nil =>
    cases t
    simp [keyed, Entries.keys]
  | cons e es ih =>
    have entries : (t.insert e.1 e.2).entries = t.entries ++ [e] :=
      Entries.put_of_not_mem e.2 (Entries.not_mem_keys_of_nodup nodup)
    have rest := ih (t.insert e.1 e.2) (by rw [entries]; simpa using nodup)
    rw [entries, nextIndex_insert] at rest
    simpa [keyed, Table.write, Entries.keys] using rest

theorem writeAll_unkeyed (es : List (Key × Value)) (n : Nat) (t : Table)
    (counts : countsFrom n (Entries.keys es)) (next : es ≠ [] → t.nextIndex.toInt = n) :
    t.writeAll (unkeyed es) = t.writeAll (keyed es) := by
  induction es generalizing n t with
  | nil => rfl
  | cons e es ih =>
    obtain ⟨_ | s, v⟩ := e
    case string => cases counts
    case int i =>
      simp only [Entries.keys, List.map_cons, countsFrom, Bool.and_eq_true, beq_iff_eq] at counts
      have same : t.nextIndex = i := by
        rw [← Int64.toInt_inj, counts.1]
        exact next (by simp)
      have written : t.push v = t.insert (.int i) v := by rw [← same]; rfl
      have rest := ih (n + 1) (t.insert (.int i) v) counts.2 ?_
      · simpa [unkeyed, keyed, Table.write, written] using rest
      · -- a key after this one shows that the index did not stay at the end of the range
        intro more
        obtain ⟨⟨_ | s, w⟩, es, rfl⟩ := List.exists_cons_of_ne_nil more
        case string => cases counts.2
        case int j =>
          simp only [List.map_cons, countsFrom, Bool.and_eq_true, beq_iff_eq] at counts
          have := j.toInt_le
          rw [nextIndex_insert, pass, toInt_max, toInt_after, same]
          omega

/-- Writing the items of a built table gives it back. -/
theorem Built.writeAll_items {t : Table} (h : t.Built) : Table.writeAll {} t.items = t := by
  obtain ⟨nodup, next⟩ := h.keys_nextIndex
  have keyed : Table.writeAll {} (keyed t.entries) = t := by
    rw [writeAll_keyed t.entries {} nodup]
    cases t
    exact congrArg (Table.mk _) next.symm
  rw [items]
  split
  case isTrue list =>
    rw [writeAll_unkeyed t.entries 0 {} list (fun _ => rfl)]
    exact keyed
  case isFalse => exact keyed

end Table

namespace Marker

inductive Built : Marker → Prop
  | fresh (t : MarkerType) : Built (fresh t)
  | set {m n : Marker} {k : String} {v : Value} : Built m → m.set k v = .ok n → Built n

theorem Built.nodup {m : Marker} (h : m.Built) : (Entries.keys m.attributes).Nodup := by
  induction h with
  | fresh t => exact .nil
  | set _ h ih =>
    rw [((set_eq_ok_iff ..).1 h).2]
    exact Entries.nodup_keys_put _ _ ih

theorem setAll_append (es : List (String × Value)) (m : Marker)
    (nodup : (Entries.keys (m.attributes ++ es)).Nodup)
    (admitted : ∀ e ∈ es, ∃ s, m.type.shape? e.1 = some s ∧ s.admits e.2) :
    m.setAll es = .ok ⟨m.type, m.attributes ++ es⟩ := by
  induction es generalizing m with
  | nil =>
    cases m
    simp
  | cons e es ih =>
    have set : m.set e.1 e.2 = .ok ⟨m.type, m.attributes ++ [e]⟩ := by
      rw [set_eq_ok_iff, Entries.put_of_not_mem e.2 (Entries.not_mem_keys_of_nodup nodup)]
      exact ⟨admitted e (.head _), rfl⟩
    refine (setAll_cons_eq_ok_iff ..).2 ⟨_, set, ?_⟩
    have rest := ih ⟨m.type, m.attributes ++ [e]⟩ (by simpa using nodup)
      (fun e' he => admitted e' (.tail _ he))
    simpa using rest

end Marker
end DocMarks
