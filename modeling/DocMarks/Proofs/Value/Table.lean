import Mathlib
import DocMarks.Proofs.Grammar.Soundness
import DocMarks.Proofs.Value.Built

/-! Tables as ordered maps. The writes to a table say all about it: the keys stand in the order in
which they were first written, each with the value that was written last, and an item without a key
goes under the index after the largest one. Only the end of the range leaves no index after it: from
then on an item without a key takes the place of the one there. -/

namespace DocMarks

def Key.integer? : Key → Option Int
  | .int i => some i.toInt
  | .string _ => none

namespace Table

/-- One past the largest integer among the keys, within the range of an index. -/
def indexAfter (ks : List Key) : Int :=
  match (ks.filterMap Key.integer?).max? with
  | none => 0
  | some largest => min (2 ^ 63 - 1) (max 0 (1 + largest))

def keyAfter (ks : List Key) : Key := .int (Int64.ofInt (indexAfter ks))

def writes (ks : List Key) : List (Option Key × Value) → List (Key × Value)
  | [] => []
  | (k?, v) :: items =>
    let k := k?.getD (keyAfter ks)
    (k, v) :: writes (ks ++ [k]) items

theorem toInt_foldl_pass (ks : List Key) (next : Int64) :
    (ks.foldl pass next).toInt =
      match (ks.filterMap Key.integer?).max? with
      | none => next.toInt
      | some largest => max next.toInt (min (2 ^ 63 - 1) (1 + largest)) := by
  induction ks generalizing next with
  | nil => rfl
  | cons k ks ih =>
    rw [List.foldl_cons, ih]
    cases k with
    | string s => rfl
    | int i =>
      have integer : (Key.int i).integer? = some i.toInt := rfl
      rw [List.filterMap_cons_some integer, List.max?_cons, pass, toInt_max, toInt_after,
        Int64.toInt_maxValue]
      cases (ks.filterMap Key.integer?).max? with
      | none => simp only [Option.elim]; omega
      | some largest => simp only [Option.elim]; omega

theorem toInt_foldl_pass_zero (ks : List Key) : (ks.foldl pass 0).toInt = indexAfter ks := by
  rw [toInt_foldl_pass, indexAfter]
  cases (ks.filterMap Key.integer?).max? with
  | none => rfl
  | some largest =>
    simp only [Int64.toInt_zero]
    omega

theorem int_foldl_pass (ks : List Key) : Key.int (ks.foldl pass 0) = keyAfter ks := by
  rw [keyAfter, ← toInt_foldl_pass_zero, Int64.ofInt_toInt]

variable {t : Table} {ws : List (Key × Value)}

structure Holds (t : Table) (ws : List (Key × Value)) : Prop where
  keys_eq : t.keys = (ws.map Prod.fst).eraseDups
  get?_eq : ∀ k, t.get? k = ws.reverse.lookup k
  next_eq : t.nextKey = keyAfter (ws.map Prod.fst)

theorem holds_empty : Holds {} [] where
  keys_eq := rfl
  get?_eq _ := rfl
  next_eq := rfl

theorem nextKey_insert (t : Table) (k : Key) (v : Value) :
    (t.insert k v).nextKey = .int (pass t.nextIndex k) := by
  rw [nextKey, nextIndex_insert]

theorem Holds.insert (h : t.Holds ws) (k : Key) (v : Value) :
    (t.insert k v).Holds (ws ++ [(k, v)]) where
  keys_eq := by
    rw [List.map_append]
    exact Entries.keys_put_of_eraseDups h.keys_eq k v
  get?_eq := Entries.get?_put_of_lookup h.get?_eq k v
  next_eq := by
    have next := h.next_eq
    rw [← int_foldl_pass, nextKey, Key.int.injEq] at next
    rw [nextKey_insert, next, ← int_foldl_pass, List.map_append, List.foldl_append]
    rfl

theorem Holds.write (h : t.Holds ws) (k? : Option Key) (v : Value) :
    (t.write (k?, v)).Holds (ws ++ [(k?.getD (keyAfter (ws.map Prod.fst)), v)]) := by
  cases k? with
  | none =>
    rw [Option.getD_none, ← h.next_eq]
    exact h.insert t.nextKey v
  | some k => exact h.insert k v

theorem Holds.writeAll (h : t.Holds ws) (items : List (Option Key × Value)) :
    (t.writeAll items).Holds (ws ++ writes (ws.map Prod.fst) items) := by
  induction items generalizing t ws with
  | nil => simpa [writes] using h
  | cons item items ih =>
    obtain ⟨k?, v⟩ := item
    have rest := ih (h.write k? v)
    rw [List.map_append, List.append_assoc] at rest
    exact rest

theorem built_writeAll (h : t.Built) (items : List (Option Key × Value)) :
    (t.writeAll items).Built := by
  induction items generalizing t with
  | nil => exact h
  | cons item items ih =>
    obtain ⟨_ | k, v⟩ := item
    · exact ih (h.push v)
    · exact ih (h.insert k v)

theorem Built.nextKey_eq (h : t.Built) : t.nextKey = keyAfter t.keys := by
  rw [nextKey, h.keys_nextIndex.2, int_foldl_pass]

theorem Built.after_le_nextIndex (h : t.Built) {i : Int64} (used : .int i ∈ t.keys) :
    min (i.toInt + 1) Int64.maxValue.toInt ≤ t.nextIndex.toInt := by
  have passed : pass t.nextIndex (.int i) = t.nextIndex := by
    rw [h.keys_nextIndex.2]
    exact pass_foldl_of_mem 0 used
  rw [← Int64.toInt_inj, pass, toInt_max, toInt_after] at passed
  omega

theorem Built.nextKey_mem_iff (h : t.Built) : t.nextKey ∈ t.keys ↔ .int Int64.maxValue ∈ t.keys := by
  have atMost := t.nextIndex.toInt_le
  have last : Int64.maxValue.toInt ≤ t.nextIndex.toInt → t.nextKey = .int Int64.maxValue := by
    intro atLeast
    rw [nextKey, Key.int.injEq, ← Int64.toInt_inj]
    omega
  constructor
  · intro used
    have past := h.after_le_nextIndex used
    rwa [last (by omega)] at used
  · intro used
    have past := h.after_le_nextIndex used
    rwa [last (by omega)]

theorem entries_push_of_not_mem (v : Value) (new : t.nextKey ∉ t.keys) :
    (t.push v).entries = t.entries ++ [(t.nextKey, v)] :=
  Entries.put_of_not_mem v new

structure Appends (t : Table) (v : Value) : Prop where
  new : t.nextKey ∉ t.keys
  size_eq : (t.push v).size = t.size + 1
  entries_eq : (t.push v).entries = t.entries ++ [(t.nextKey, v)]

theorem Built.appends_iff (h : t.Built) (v : Value) :
    t.Appends v ↔ .int Int64.maxValue ∉ t.keys := by
  rw [← h.nextKey_mem_iff]
  constructor
  · intro appends
    exact appends.new
  · intro new
    have entries := entries_push_of_not_mem v new
    exact ⟨new, by simp [size, entries], entries⟩

theorem countsFrom_iff {n : Nat} {ks : List Key} :
    countsFrom n ks ↔
      ks.map Key.integer? = (List.range' n ks.length).map fun i : Nat => some (i : Int) := by
  induction ks generalizing n with
  | nil => simp [countsFrom]
  | cons k ks ih =>
    cases k with
    | string s => simp [countsFrom, Key.integer?, List.range'_succ]
    | int i => simp [countsFrom, Key.integer?, List.range'_succ, ih]

theorem isList_iff :
    t.isList ↔ t.keys.map Key.integer? = (List.range t.size).map fun i : Nat => some (i : Int) := by
  have size : t.keys.length = t.size := by simp [keys, Entries.keys, Table.size]
  rw [isList, countsFrom_iff, size, List.range_eq_range']

theorem writeAll_pushed (vs : List Value) : writeAll {} (vs.map fun v => (none, v)) = ofList vs := by
  rw [writeAll, List.foldl_map]
  rfl

theorem ofList_counts (vs : List Value) (short : vs.length < 2 ^ 63) :
    (ofList vs).isList ∧ (ofList vs).values = vs ∧ (ofList vs).nextIndex.toInt = vs.length := by
  induction vs using List.reverseRecOn with
  | nil => exact ⟨rfl, rfl, rfl⟩
  | append_singleton vs v ih =>
    rw [List.length_append, List.length_singleton] at short
    obtain ⟨list, values, next⟩ := ih (by omega)
    have size : (ofList vs).size = vs.length := by
      rw [← congrArg List.length values, Table.values, List.length_map, Table.size]
    rw [isList_iff, size] at list
    have pushed : ofList (vs ++ [v]) = (ofList vs).push v := by simp [ofList]
    have new : (ofList vs).nextKey ∉ (ofList vs).keys := by
      intro used
      have counted := List.mem_map_of_mem (f := Key.integer?) used
      rw [list, nextKey, Key.integer?, next] at counted
      simp at counted
    have entries := entries_push_of_not_mem v new
    rw [pushed, isList_iff]
    refine ⟨?_, ?_, ?_⟩
    · have size' : ((ofList vs).push v).size = vs.length + 1 := by
        simpa [Table.size, entries] using size
      have keys' : ((ofList vs).push v).keys = (ofList vs).keys ++ [(ofList vs).nextKey] := by
        simp [keys, Entries.keys, entries]
      rw [size', keys', List.map_append, list, List.range_succ, List.map_append, List.map_singleton,
        List.map_singleton, nextKey, Key.integer?, next]
    · rw [Table.values, entries, List.map_append, ← Table.values, values]
      rfl
    · rw [push, nextIndex_insert, nextKey, pass, toInt_max, toInt_after, Int64.toInt_maxValue, next,
        List.length_append, List.length_singleton]
      omega

end Table

/-- A table is the ordered map of the writes to it, and its next index follows from its keys. -/
theorem Table.writeAll_refines_orderedMap (items : List (Option Key × Value)) :
    let t := writeAll {} items
    let ws := writes [] items
    t.keys.Nodup ∧
    t.keys = (ws.map Prod.fst).eraseDups ∧
    (∀ e ∈ t.entries, ws.reverse.lookup e.1 = some e.2) ∧
    (∀ k, t.get? k = ws.reverse.lookup k) ∧
    t.nextIndex.toInt = indexAfter t.keys ∧
    (∀ v, t.push v = t.insert (keyAfter t.keys) v) ∧
    (t.isList ↔ t.keys.map Key.integer? = (List.range t.size).map fun i : Nat => some (i : Int)) ∧
    ∀ vs : List Value, vs.length < 2 ^ 63 → items = vs.map (fun v => (none, v)) →
      t.isList ∧ t.values = vs := by
  intro t ws
  have built : t.Built := built_writeAll .empty items
  have holds : t.Holds ws := holds_empty.writeAll items
  obtain ⟨nodup, next⟩ := built.keys_nextIndex
  refine ⟨nodup, holds.keys_eq, ?_, holds.get?_eq, ?_, ?_, isList_iff, ?_⟩
  · intro e mem
    rw [← holds.get?_eq]
    exact Entries.get?_of_mem nodup mem
  · rw [next, toInt_foldl_pass_zero]
  · intro v
    rw [push, built.nextKey_eq]
  · intro vs short pushed
    have list : t = ofList vs := by
      rw [← writeAll_pushed, ← pushed]
    rw [list]
    exact ⟨(ofList_counts vs short).1, (ofList_counts vs short).2.1⟩

theorem Table.writeAll_refines_orderedMap_mixed :
    let t := writeAll {} [(some (.int 5), .int 1), (none, .int 2), (some (.string "k"), .int 3),
      (some (.int 5), .int 4), (some (.int (-3)), .int 5)]
    t.keys = [.int 5, .int 6, .string "k", .int (-3)] ∧ t.get? (.int 5) = some (.int 4) ∧
    t.nextIndex.toInt = 7 ∧
    (writeAll {} [(none, .bool true), (none, .null)]).isList ∧
    (writeAll {} [(none, .bool true), (none, .null)]).values = [.bool true, .null] := by
  intro t
  obtain ⟨-, keys, -, last, next, -⟩ := writeAll_refines_orderedMap
    [(some (.int 5), .int 1), (none, .int 2), (some (.string "k"), .int 3), (some (.int 5), .int 4),
      (some (.int (-3)), .int 5)]
  have keys : t.keys = [.int 5, .int 6, .string "k", .int (-3)] := keys.trans (by decide +kernel)
  obtain ⟨-, -, -, -, -, -, -, pushed⟩ :=
    writeAll_refines_orderedMap [(none, .bool true), (none, .null)]
  refine ⟨keys, (last (.int 5)).trans rfl, ?_, ?_⟩
  · refine next.trans ?_
    change indexAfter t.keys = 7
    rw [keys]
    decide +kernel
  · exact pushed [.bool true, .null] (by decide) rfl

/-- An item without a key is added behind the others exactly if the end of the range is not in use
before it. This is so for each item of every table that is read. -/
theorem Table.push_appends_iff_end_free (v : Value) :
    (∀ t : Table, t.Built → (t.Appends v ↔ .int Int64.maxValue ∉ t.keys)) ∧
    (∀ (s : Shape) (owner : Owner) (a : Allowance) (c d : Cursor) (w : Value), c.Ends →
      (Shape.tableOf s).rule owner a c = .ok (w, d) →
      ∃ n opening ts closing items, c.Passes (opening :: (ts ++ [closing])) d ∧
        s.DerivesItems n ts items ∧ w = .table (writeAll {} items)) ∧
    ∀ front back : List (Option Key × Value),
      writeAll {} (front ++ (none, v) :: back) = ((writeAll {} front).push v).writeAll back ∧
      ((writeAll {} front).Appends v ↔ .int Int64.maxValue ∉ (writeAll {} front).keys) := by
  refine ⟨fun t built => built.appends_iff v, ?_, ?_⟩
  · intro s owner a c d w ends read
    obtain ⟨ts, passes, derived⟩ := (Shape.tableOf s).rule_sound owner ends read
    generalize a.left = levels at derived
    cases derived with
    | @table _ n opening ts closing items opens derived closes =>
      exact ⟨n, opening, ts, closing, items, passes, derived, rfl⟩
  · intro front back
    refine ⟨?_, (built_writeAll .empty front).appends_iff v⟩
    rw [writeAll, List.foldl_append]
    rfl

theorem Table.push_appends_iff_end_free_next_to_end :
    let t := (({} : Table).insert (.int (-3)) .null).insert (.int 9223372036854775806) (.int 1)
    t.Built ∧ t.nextKey = .int Int64.maxValue ∧ t.Appends (.int 2) ∧
      ∃ d ts items, (Cursor.ofTokens (Token.ofText "\x7b7: 1, 2\x7d" 0)).Passes ts d ∧
        writeAll {} items = ⟨[(.int 7, .int 1), (.int 8, .int 2)], 9⟩ := by
  intro t
  have built : t.Built := (Built.empty.insert _ _).insert _ _
  obtain ⟨appends, literals, -⟩ := push_appends_iff_end_free (.int 2)
  have read : ∃ d, (Shape.tableOf (.scalar .mixed)).rule ⟨"m", "k"⟩ ⟨1, 1⟩
      (Cursor.ofTokens (Token.ofText "\x7b7: 1, 2\x7d" 0)) =
        .ok (.table ⟨[(.int 7, .int 1), (.int 8, .int 2)], 9⟩, d) := ⟨_, by cbv⟩
  obtain ⟨d, read⟩ := read
  obtain ⟨n, opening, ts, closing, items, passes, -, table⟩ :=
    literals _ _ _ _ _ _ (Cursor.ends_ofTokens _) read
  refine ⟨built, by decide +kernel, (appends t built).2 (by decide +kernel), ?_⟩
  exact ⟨d, _, items, passes, (Value.table.inj table).symm⟩

theorem Table.push_replaces_at_end :
    let t := ({} : Table).insert (.int Int64.maxValue) (.int 1)
    t.Built ∧ ¬ t.Appends (.int 2) ∧ t.nextKey ∈ t.keys ∧
      (t.push (.int 2)).entries = [(.int Int64.maxValue, .int 2)] ∧
      ∃ d, (Shape.tableOf (.scalar .mixed)).rule ⟨"m", "k"⟩ ⟨1, 1⟩
        (Cursor.ofTokens (Token.ofText "\x7b9223372036854775806: 0, 1, 2\x7d" 0)) =
          .ok (.table ⟨[(.int 9223372036854775806, .int 0), (.int Int64.maxValue, .int 2)],
            Int64.maxValue⟩, d) := by
  intro t
  have used : t.nextKey ∈ t.keys := by decide +kernel
  exact ⟨.insert _ _ .empty, fun appends => appends.new used, used, rfl, _, by cbv⟩

end DocMarks
