import Mathlib
import DocMarks.Proofs.Conformance
import DocMarks.Proofs.Json.Compact
import DocMarks.Proofs.Value.Json
import DocMarks.Proofs.Value.Table

/-! The JSON of a value against the value. Lists, other tables and markers share the forms of JSON,
but a shape tells them apart, and a table that was written to is told by its keys and values. Only a
text key that spells an index is lost. -/

namespace DocMarks

def Key.Apart : Key → Prop
  | .int _ => True
  | .string s => ∀ i : Int64, s ≠ toString i.toInt

theorem Key.int_member_inj {i j : Int64} (h : (Key.int i).member = (Key.int j).member) : i = j := by
  have read := Numeral.int64?_toString i
  have text : toString i.toInt = toString j.toInt := h
  rw [text, Numeral.int64?_toString] at read
  exact (Option.some.inj read).symm

theorem Key.eq_or_spelled {k k' : Key} (h : k.member = k'.member) :
    k = k' ∨ ∃ i : Int64, (k = .int i ∧ k' = .string (toString i.toInt)) ∨
      (k' = .int i ∧ k = .string (toString i.toInt)) := by
  cases k with
  | int i =>
    cases k' with
    | int j => exact .inl (congrArg Key.int (int_member_inj h))
    | string s => exact .inr ⟨i, .inl ⟨rfl, congrArg Key.string h.symm⟩⟩
  | string s =>
    cases k' with
    | int j => exact .inr ⟨j, .inr ⟨rfl, congrArg Key.string h⟩⟩
    | string s' => exact .inl (congrArg Key.string h)

theorem Key.Apart.member_inj {k k' : Key} (apart : k.Apart) (apart' : k'.Apart)
    (h : k.member = k'.member) : k = k' := by
  rcases Key.eq_or_spelled h with same | ⟨i, ⟨-, rfl⟩ | ⟨-, rfl⟩⟩
  · exact same
  · exact absurd rfl (apart' i)
  · exact absurd rfl (apart i)

/-- No float occurs, tables are built by writing to them, and no text key spells an index. -/
inductive Value.Legible : Value → Prop
  | null : Value.Legible .null
  | bool (b : Bool) : Value.Legible (.bool b)
  | int (i : Int64) : Value.Legible (.int i)
  | string (s : String) : Value.Legible (.string s)
  | table {t : Table} : t.Built → (∀ e ∈ t.entries, e.1.Apart) →
      (∀ e ∈ t.entries, Value.Legible e.2) → Value.Legible (.table t)
  | marker {m : Marker} : (∀ e ∈ m.attributes, Value.Legible e.2) → Value.Legible (.marker m)

theorem Value.Legible.floatFree {v : Value} (h : v.Legible) : v.toJson.FloatFree := by
  induction h with
  | null => exact .null
  | bool b => exact .bool b
  | int i => exact .integer _
  | string s => exact .string s
  | @table t _ _ _ ih =>
    change t.toJson.FloatFree
    by_cases list : t.isList
    · rw [Table.toJson_of_isList list]
      exact .list (List.forall_mem_map.2 ih)
    · rw [Table.toJson_of_not_isList list]
      exact .object (List.forall_mem_map.2 ih)
  | @marker m _ ih =>
    change m.toJson.FloatFree
    rw [Marker.toJson_eq]
    apply Json.FloatFree.object
    intro e he
    rcases List.mem_pair.1 he with rfl | rfl
    · exact .string _
    · exact .object (List.forall_mem_map.2 ih)

namespace Table

variable {t t' : Table}

theorem countsFrom_inj {n : Nat} {ks ks' : List Key} (counts : countsFrom n ks)
    (counts' : countsFrom n ks') (length : ks.length = ks'.length) : ks = ks' := by
  induction ks generalizing n ks' with
  | nil => exact (List.length_eq_zero_iff.1 length.symm).symm
  | cons k ks ih =>
    obtain ⟨k', ks', rfl⟩ := List.exists_cons_of_length_eq_add_one length.symm
    cases k with
    | string s => cases counts
    | int i =>
      cases k' with
      | string s => cases counts'
      | int j =>
        simp only [countsFrom, Bool.and_eq_true, beq_iff_eq] at counts counts'
        have first : i = j := Int64.toInt_inj.1 (counts.1.trans counts'.1.symm)
        rw [first, ih counts.2 counts'.2 (Nat.succ.inj length)]

theorem members_eq_of_toJson_eq (h : t.toJson = t'.toJson) :
    (t.entries.map fun e => (e.1.member, e.2.toJson)) =
      t'.entries.map fun e => (e.1.member, e.2.toJson) := by
  by_cases list : t.isList <;> by_cases list' : t'.isList
  · rw [toJson_of_isList list, toJson_of_isList list', Json.list.injEq] at h
    have keys : t.keys = t'.keys := by
      apply countsFrom_inj list list'
      simpa [keys, Entries.keys] using congrArg List.length h
    have members := congrArg (List.map Key.member) keys
    rw [Table.keys, Table.keys, Entries.keys, Entries.keys, List.map_map, List.map_map] at members
    rw [← List.zip_map', ← List.zip_map', h]
    exact congrArg (List.zip · _) members
  · rw [toJson_of_isList list, toJson_of_not_isList list'] at h
    cases h
  · rw [toJson_of_not_isList list, toJson_of_isList list'] at h
    cases h
  · rw [toJson_of_not_isList list, toJson_of_not_isList list', Json.object.injEq] at h
    exact h

theorem Built.eq_of_entries_eq (built : t.Built) (built' : t'.Built)
    (entries : t.entries = t'.entries) : t = t' := by
  have next := built.keys_nextIndex.2
  have next' := built'.keys_nextIndex.2
  cases t
  cases t'
  cases entries
  exact congrArg (Table.mk _) (next.trans next'.symm)

theorem not_isList_of_string_mem {s : String} (h : .string s ∈ t.keys) : ¬ t.isList := by
  intro list
  rw [isList_iff] at list
  have counted := List.mem_map_of_mem (f := Key.integer?) h
  simp [list, Key.integer?] at counted

theorem map_fst_members (t : Table) :
    (t.entries.map fun e => (e.1.member, e.2.toJson)).map Prod.fst = t.keys.map Key.member := by
  rw [keys, Entries.keys, List.map_map, List.map_map]
  rfl

theorem Built.nodup_map_member_iff (h : t.Built) :
    (t.keys.map Key.member).Nodup ↔
      ¬ ∃ i : Int64, .int i ∈ t.keys ∧ .string (toString i.toInt) ∈ t.keys := by
  rw [List.nodup_map_iff_inj_on h.keys_nextIndex.1]
  constructor
  · rintro inj ⟨i, index, spelled⟩
    cases inj _ index _ spelled rfl
  · intro apart k hk k' hk' h
    rcases Key.eq_or_spelled h with same | ⟨i, ⟨rfl, rfl⟩ | ⟨rfl, rfl⟩⟩
    · exact same
    · exact absurd ⟨i, hk, hk'⟩ apart
    · exact absurd ⟨i, hk', hk⟩ apart

theorem Built.exists_duplicate_iff (h : t.Built) :
    (∃ members, t.toJson = .object members ∧ ¬ (members.map Prod.fst).Nodup) ↔
      ∃ i : Int64, .int i ∈ t.keys ∧ .string (toString i.toInt) ∈ t.keys := by
  constructor
  · rintro ⟨members, json, duplicate⟩
    have list : ¬ t.isList := by
      intro list
      rw [toJson_of_isList list] at json
      cases json
    rw [toJson_of_not_isList list] at json
    cases json
    rwa [map_fst_members, h.nodup_map_member_iff, not_not] at duplicate
  · rintro ⟨i, index, spelled⟩
    refine ⟨_, toJson_of_not_isList (not_isList_of_string_mem spelled), ?_⟩
    rw [map_fst_members, h.nodup_map_member_iff, not_not]
    exact ⟨i, index, spelled⟩

end Table

theorem Marker.attributes_eq_of_toJson_eq {m m' : Marker} (h : m.toJson = m'.toJson) :
    (m.attributes.map fun e => (e.1, e.2.toJson)) =
      m'.attributes.map fun e => (e.1, e.2.toJson) := by
  rw [toJson_eq, toJson_eq] at h
  simp only [Json.object.injEq, List.cons.injEq, Prod.mk.injEq, true_and] at h
  exact h.2.1

theorem Value.eq_of_toJson_eq_of_isScalar {v w : Value} (scalar : v.isScalar)
    (scalar' : w.isScalar) (h : v.toJson = w.toJson) : v = w := by
  cases v with
  | table => cases scalar
  | marker => cases scalar
  | int i =>
    cases w with
    | int j => rw [Int64.toInt_inj.1 (Json.integer.inj h)]
    | table => cases scalar'
    | marker => cases scalar'
    | _ => cases h
  | _ =>
    cases w with
    | table => cases scalar'
    | marker => cases scalar'
    | _ => cases h <;> rfl

namespace Shape

theorem Conforms.exists_table {s : Shape} {v : Value} (h : (tableOf s).Conforms v) :
    ∃ t, v = .table t ∧ ∀ e ∈ t.entries, s.Conforms e.2 := by
  cases h with
  | table typed => exact ⟨_, rfl, typed⟩

theorem Conforms.exists_marker {t : MarkerType} {v : Value} (h : (Shape.marker t).Conforms v) :
    ∃ m, v = .marker m ∧ m.type = t ∧ m.WellTyped := by
  obtain ⟨m, rfl⟩ : ∃ m, v = .marker m := by
    cases h
    exact ⟨_, rfl⟩
  exact ⟨m, rfl, conforms_marker_iff.1 h⟩

theorem Conforms.isScalar {kind : ScalarKind} {v : Value} (h : (scalar kind).Conforms v) :
    v.isScalar := by
  cases h with
  | mixed scalar => exact scalar
  | _ => rfl

/-- The JSON of a value tells it from the others of its shape. -/
theorem Conforms.eq_of_toJson_eq {s : Shape} {v w : Value} (typed : s.Conforms v)
    (typed' : s.Conforms w) (legible : v.Legible) (legible' : w.Legible)
    (h : v.toJson = w.toJson) : v = w := by
  induction typed generalizing w with
  | string | integer | float | bool =>
    exact Value.eq_of_toJson_eq_of_isScalar rfl typed'.isScalar h
  | mixed scalar => exact Value.eq_of_toJson_eq_of_isScalar scalar typed'.isScalar h
  | @table s t _ ih =>
    obtain ⟨t', rfl, items⟩ := typed'.exists_table
    cases legible with
    | table built apart legible =>
    cases legible' with
    | table built' apart' legible' =>
      rw [built.eq_of_entries_eq built']
      apply eq_of_map_eq _ (Table.members_eq_of_toJson_eq h)
      intro e he e' he' same
      obtain ⟨key, value⟩ := Prod.mk.inj same
      exact Prod.ext ((apart e he).member_inj (apart' e' he') key)
        (ih e he (items e' he') (legible e he) (legible' e' he') value)
  | @marker m declared typed ih =>
    obtain ⟨m', rfl, type, attributes⟩ := typed'.exists_marker
    cases legible with
    | marker legible =>
    cases legible' with
    | marker legible' =>
      have same : m.attributes = m'.attributes := by
        apply eq_of_map_eq _ (Marker.attributes_eq_of_toJson_eq h)
        intro e he e' he' same
        obtain ⟨key, value⟩ := Prod.mk.inj same
        obtain ⟨s, declared, conforms⟩ := attributes e' he'
        rw [type, ← key] at declared
        exact Prod.ext key (ih e he s declared conforms (legible e he) (legible' e' he') value)
      cases m
      cases m'
      cases same
      cases type
      rfl

end Shape

/-- The JSON text of a value tells it from the others of its shape, floats and text keys that spell
an index aside; and two members of an object have one name exactly if both an index and its spelling
are keys. -/
theorem Value.compact_toJson_inj_of_conforms :
    (∀ (s : Shape) (v w : Value), s.Conforms v → s.Conforms w → v.Legible → w.Legible →
      v.toJson.compact = w.toJson.compact → v = w) ∧
    ∀ t : Table, t.Built →
      ((∃ members, t.toJson = .object members ∧ ¬ (members.map Prod.fst).Nodup) ↔
        ∃ i : Int64, .int i ∈ t.keys ∧ .string (toString i.toInt) ∈ t.keys) := by
  refine ⟨?_, fun t built => built.exists_duplicate_iff⟩
  intro s v w typed typed' legible legible' text
  have json := legible.floatFree.compact_inj legible'.floatFree text
  exact typed.eq_of_toJson_eq typed' legible legible' json

theorem Value.compact_toJson_inj_of_conforms_rewritten :
    let q : MarkerType := ⟨"q", [("n", .tableOf (.scalar .mixed))]⟩
    let pushed : Table := Table.ofList [.int 7, .null]
    let rewritten : Table :=
      ((({} : Table).insert (.int 0) .null).insert (.int 1) .null).insert (.int 0) (.int 7)
    let doubled : Table := (({} : Table).insert (.int (-1)) .null).insert (.string "-1") .null
    Value.marker ⟨q, [("n", .table pushed)]⟩ = .marker ⟨q, [("n", .table rewritten)]⟩ ∧
      ∃ members, doubled.toJson = .object members ∧ ¬ (members.map Prod.fst).Nodup := by
  intro q pushed rewritten doubled
  obtain ⟨lossless, duplicate⟩ := compact_toJson_inj_of_conforms
  have conforms {t : Table} (entries : t.entries = [(.int 0, .int 7), (.int 1, .null)]) :
      (Shape.marker q).Conforms (.marker ⟨q, [("n", .table t)]⟩) := by
    refine Shape.conforms_marker_iff.2 ⟨rfl, List.forall_mem_singleton.2 ⟨_, rfl, .table ?_⟩⟩
    simpa [entries] using ⟨.mixed rfl, .mixed rfl⟩
  have legible {t : Table} (built : t.Built)
      (entries : t.entries = [(.int 0, .int 7), (.int 1, .null)]) :
      (Value.marker ⟨q, [("n", .table t)]⟩).Legible := by
    refine .marker (List.forall_mem_singleton.2 (.table built ?_ ?_))
    · simp [entries, Key.Apart]
    · simpa [entries] using ⟨.int 7, .null⟩
  have first : pushed.Built := (Table.Built.empty.push _).push _
  have second : rewritten.Built := ((Table.Built.empty.insert _ _).insert _ _).insert _ _
  have third : doubled.Built := (Table.Built.empty.insert _ _).insert _ _
  refine ⟨?_, (duplicate doubled third).2 ⟨-1, by decide +kernel, by decide +kernel⟩⟩
  exact lossless (.marker q) _ _ (conforms rfl) (conforms rfl) (legible first rfl)
    (legible second rfl) (by cbv)

end DocMarks
