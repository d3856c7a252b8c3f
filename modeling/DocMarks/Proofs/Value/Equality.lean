import Mathlib
import DocMarks.Proofs.Value.Built
import DocMarks.Value.Equality

namespace DocMarks

namespace Entries

variable {β : Type} {es fs : List (String × β)}

def byName (es : List (String × β)) : List (String × β) := es.insertionSort fun a b => a.1 ≤ b.1

theorem byName_perm (es : List (String × β)) : (byName es).Perm es := List.perm_insertionSort _ es

theorem byName_pairwise (es : List (String × β)) : (byName es).Pairwise fun a b => a.1 ≤ b.1 := by
  have : Std.Total fun a b : String × β => a.1 ≤ b.1 := ⟨fun a b => le_total a.1 b.1⟩
  have : IsTrans (String × β) fun a b => a.1 ≤ b.1 := ⟨fun a b c => le_trans⟩
  exact List.pairwise_insertionSort _ es

theorem byName_eq_iff_perm (nodup : (keys es).Nodup) : byName es = byName fs ↔ es.Perm fs := by
  constructor
  · intro h
    exact (byName_perm es).symm.trans (h ▸ byName_perm fs)
  · intro perm
    refine List.Perm.eq_of_pairwise ?_ (byName_pairwise es) (byName_pairwise fs)
      ((byName_perm es).trans (perm.trans (byName_perm fs).symm))
    intro a b ha hb le ge
    have hb : b ∈ es := perm.mem_iff.2 ((byName_perm fs).mem_iff.1 hb)
    exact eq_of_mem_of_nodup nodup ((byName_perm es).mem_iff.1 ha) hb (le_antisymm le ge)

theorem perm_iff_get? (nodup : (keys es).Nodup) (nodup' : (keys fs).Nodup) :
    es.Perm fs ↔ es.length = fs.length ∧ ∀ e ∈ es, get? fs e.1 = some e.2 := by
  constructor
  · intro perm
    exact ⟨perm.length_eq, fun e mem => get?_of_mem nodup' (perm.mem_iff.1 mem)⟩
  · rintro ⟨length, found⟩
    have distinct : es.Nodup := .of_map _ nodup
    have subset : es ⊆ fs := fun e mem => mem_of_get? (found e mem)
    exact (distinct.subperm subset).perm_of_length_le length.ge

end Entries

inductive Value.Comparable : Value → Prop
  | null : Value.Comparable .null
  | bool (b : Bool) : Value.Comparable (.bool b)
  | int (i : Int64) : Value.Comparable (.int i)
  | string (s : String) : Value.Comparable (.string s)
  | table {t : Table} : t.Built → (∀ e ∈ t.entries, Value.Comparable e.2) →
      Value.Comparable (.table t)
  | marker {m : Marker} : m.Built → (∀ e ∈ m.attributes, Value.Comparable e.2) →
      Value.Comparable (.marker m)

mutual

/-- The value with the attributes of all markers sorted by name, without next indices and without
what its types declare. -/
def Value.canonical : Value → Value
  | .null => .null
  | .bool b => .bool b
  | .int i => .int i
  | .float x => .float x
  | .string s => .string s
  | .table t => .table t.canonical
  | .marker m => .marker m.canonical
termination_by structural v => v

def Table.canonical : Table → Table
  | ⟨entries, _⟩ => ⟨Value.canonicalEntries entries, 0⟩
termination_by structural t => t

def Marker.canonical : Marker → Marker
  | ⟨type, attributes⟩ => ⟨⟨type.name, []⟩, Entries.byName (Value.canonicalAttributes attributes)⟩
termination_by structural m => m

def Value.canonicalEntries : List (Key × Value) → List (Key × Value)
  | [] => []
  | (k, v) :: rest => (k, v.canonical) :: Value.canonicalEntries rest
termination_by structural es => es

def Value.canonicalAttributes : List (String × Value) → List (String × Value)
  | [] => []
  | (k, v) :: rest => (k, v.canonical) :: Value.canonicalAttributes rest
termination_by structural es => es

end

def Value.canonicalEntry {α : Type} (e : α × Value) : α × Value := (e.1, e.2.canonical)

theorem Value.keys_canonicalEntry {α : Type} (es : List (α × Value)) :
    Entries.keys (es.map canonicalEntry) = Entries.keys es := by
  rw [Entries.keys, List.map_map]
  rfl

theorem Value.get?_canonicalEntry (es : List (String × Value)) (k : String) :
    Entries.get? (es.map canonicalEntry) k = (Entries.get? es k).map canonical := by
  induction es with
  | nil => rfl
  | cons e es ih =>
    rw [List.map_cons, Entries.get?, Entries.get?, ih]
    by_cases here : e.1 = k
    · simp [here, canonicalEntry]
    · simp [here, canonicalEntry]

theorem Value.canonicalEntries_eq (es : List (Key × Value)) :
    canonicalEntries es = es.map canonicalEntry :=
  eq_map_of_cons rfl (fun _ _ => rfl) es

theorem Value.canonicalAttributes_eq (as : List (String × Value)) :
    canonicalAttributes as = as.map canonicalEntry :=
  eq_map_of_cons rfl (fun _ _ => rfl) as

theorem Table.canonical_eq (t : Table) :
    t.canonical = ⟨t.entries.map Value.canonicalEntry, 0⟩ := by
  cases t
  rw [Table.canonical, Value.canonicalEntries_eq]

theorem Marker.canonical_eq (m : Marker) :
    m.canonical =
      ⟨⟨m.name, []⟩, Entries.byName (m.attributes.map Value.canonicalEntry)⟩ := by
  cases m
  rw [Marker.canonical, Value.canonicalAttributes_eq]
  rfl

theorem Table.canonical_eq_iff {t u : Table} :
    t.canonical = u.canonical ↔
      t.entries.map Value.canonicalEntry = u.entries.map Value.canonicalEntry := by
  rw [Table.canonical_eq, Table.canonical_eq, Table.mk.injEq]
  exact and_iff_left rfl

theorem Marker.canonical_eq_iff {m n : Marker} (nodup : (Entries.keys m.attributes).Nodup) :
    m.canonical = n.canonical ↔
      m.name = n.name ∧
        (m.attributes.map Value.canonicalEntry).Perm (n.attributes.map Value.canonicalEntry) := by
  rw [Marker.canonical_eq, Marker.canonical_eq, Marker.mk.injEq, MarkerType.mk.injEq,
    Entries.byName_eq_iff_perm (by rwa [Value.keys_canonicalEntry])]
  exact and_congr_left' (and_iff_left rfl)

namespace Value

theorem equalEntries_iff {es fs : List (Key × Value)}
    (same : ∀ e ∈ es, ∀ f ∈ fs, e.2.equal f.2 ↔ e.2.canonical = f.2.canonical) :
    equalEntries es fs ↔ es.map canonicalEntry = fs.map canonicalEntry := by
  induction es generalizing fs with
  | nil => cases fs <;> simp [equalEntries]
  | cons e es ih =>
    cases fs with
    | nil => simp [equalEntries]
    | cons f fs =>
      have rest := @ih fs fun e he f hf => same e (.tail _ he) f (.tail _ hf)
      simp [equalEntries, canonicalEntry, rest, same e (.head _) f (.head _)]

theorem equalWithin_iff {as bs : List (String × Value)} :
    equalWithin as bs ↔ ∀ a ∈ as, ∃ w, Entries.get? bs a.1 = some w ∧ a.2.equal w := by
  induction as with
  | nil => simp [equalWithin]
  | cons a as ih =>
    rw [equalWithin, Bool.and_eq_true, ih, List.forall_mem_cons]
    cases Entries.get? bs a.1 with
    | none => simp
    | some w => simp

/-- Markers are compared as maps: as many attributes, and each of them found in the other. -/
theorem equalWithin_iff_perm {as bs : List (String × Value)} (nodup : (Entries.keys as).Nodup)
    (nodup' : (Entries.keys bs).Nodup)
    (same : ∀ a ∈ as, ∀ b ∈ bs, a.2.equal b.2 ↔ a.2.canonical = b.2.canonical) :
    as.length = bs.length ∧ equalWithin as bs ↔
      (as.map canonicalEntry).Perm (bs.map canonicalEntry) := by
  rw [Entries.perm_iff_get? (by rwa [keys_canonicalEntry]) (by rwa [keys_canonicalEntry]),
    List.length_map, List.length_map, equalWithin_iff, List.forall_mem_map]
  refine and_congr_right fun _ => forall₂_congr fun a ha => ?_
  rw [get?_canonicalEntry, Option.map_eq_some_iff]
  refine exists_congr fun w => and_congr_right fun found => ?_
  rw [same a ha (a.1, w) (Entries.mem_of_get? found), eq_comm]
  rfl

end Value

theorem Table.equal_eq (t u : Table) : t.equal u = Value.equalEntries t.entries u.entries := by
  cases t
  rw [Table.equal]

theorem Marker.equal_iff {m n : Marker} :
    m.equal n ↔ m.name = n.name ∧ m.attributes.length = n.attributes.length ∧
      Value.equalWithin m.attributes n.attributes := by
  cases m
  rw [Marker.equal, Bool.and_eq_true, Bool.and_eq_true, and_assoc, beq_iff_eq, beq_iff_eq]
  rfl

namespace Value

variable {v w : Value}

theorem Comparable.equal_iff (hv : v.Comparable) (hw : w.Comparable) :
    v.equal w ↔ v.canonical = w.canonical := by
  induction hv generalizing w with
  | null => cases hw <;> simp [equal, canonical]
  | bool b => cases hw <;> simp [equal, canonical]
  | int i => cases hw <;> simp [equal, canonical]
  | string s => cases hw <;> simp [equal, canonical]
  | @table t _ _ ih =>
    cases hw with
    | @table u _ items =>
      rw [equal, canonical, canonical, table.injEq, Table.canonical_eq_iff, Table.equal_eq]
      exact equalEntries_iff fun e he f hf => ih e he (items f hf)
    | _ => simp [equal, canonical]
  | @marker m built _ ih =>
    cases hw with
    | @marker n built' items =>
      rw [equal, canonical, canonical, marker.injEq, Marker.canonical_eq_iff built.nodup,
        Marker.equal_iff]
      refine and_congr_right fun _ => ?_
      exact equalWithin_iff_perm built.nodup built'.nodup fun a ha b hb => ih a ha (items b hb)
    | _ => simp [equal, canonical]

inductive Frame where
  | table (front : List (Key × Value)) (key : Key) (back : List (Key × Value)) (nextIndex : Int64)
  | marker (type : MarkerType) (front : List (String × Value)) (key : String)
      (back : List (String × Value))

def Frame.fill : Frame → Value → Value
  | .table front key back nextIndex, v => .table ⟨front ++ (key, v) :: back, nextIndex⟩
  | .marker type front key back, v => .marker ⟨type, front ++ (key, v) :: back⟩

/-- The value with `v` at a place inside it, which is given by the frames around `v`, the outermost
first. -/
def within (place : List Frame) (v : Value) : Value := place.foldr Frame.fill v

theorem Comparable.of_fill {f : Frame} (h : (f.fill v).Comparable) : v.Comparable := by
  cases f with
  | table front key back nextIndex =>
    cases h with
    | table _ items => exact items (key, v) (by simp)
  | marker type front key back =>
    cases h with
    | marker _ items => exact items (key, v) (by simp)

theorem Comparable.of_within {place : List Frame} (h : (within place v).Comparable) :
    v.Comparable := by
  induction place with
  | nil => exact h
  | cons f place ih => exact ih h.of_fill

theorem Comparable.canonical_fill_iff {f : Frame} (h : (f.fill v).Comparable) :
    (f.fill v).canonical = (f.fill w).canonical ↔ v.canonical = w.canonical := by
  cases f with
  | table front key back nextIndex =>
    rw [Frame.fill, Frame.fill, canonical, canonical, table.injEq, Table.canonical_eq_iff]
    simp [canonicalEntry]
  | marker type front key back =>
    cases h with
    | marker built _ =>
      rw [Frame.fill, Frame.fill, canonical, canonical, marker.injEq,
        Marker.canonical_eq_iff built.nodup, List.map_append, List.map_append,
        List.perm_append_left_iff, List.map_cons, List.map_cons]
      have same {a b : String × Value} {l : List (String × Value)} :
          (a :: l).Perm (b :: l) ↔ a = b :=
        (List.perm_append_right_iff l : ([a] ++ l).Perm ([b] ++ l) ↔ _).trans
          List.singleton_perm_singleton
      simp [same, canonicalEntry, Marker.name]

theorem Comparable.equal_within_iff {place : List Frame} (hv : (within place v).Comparable)
    (hw : (within place w).Comparable) :
    (within place v).equal (within place w) ↔ v.equal w := by
  rw [hv.equal_iff hw, hv.of_within.equal_iff hw.of_within]
  clear hw
  induction place with
  | nil => rfl
  | cons f place ih => exact hv.canonical_fill_iff.trans (ih hv.of_fill)

theorem Comparable.equal_table_iff_of_perm {t u : Table} (ht : (Value.table t).Comparable)
    (hu : (Value.table u).Comparable) (perm : t.entries.Perm u.entries) :
    (Value.table t).equal (.table u) ↔ t.entries = u.entries := by
  rw [ht.equal_iff hu, canonical, canonical, table.injEq, Table.canonical_eq_iff]
  constructor
  · intro same
    have keys : Entries.keys t.entries = Entries.keys u.entries := by
      rw [← keys_canonicalEntry, same, keys_canonicalEntry]
    cases ht with
    | table built _ => exact Entries.eq_of_perm_of_keys_eq built.keys_nextIndex.1 perm keys
  · exact congrArg _

theorem Comparable.equal_marker_of_perm {m n : Marker} (hm : (Value.marker m).Comparable)
    (hn : (Value.marker n).Comparable) (name : m.name = n.name)
    (perm : m.attributes.Perm n.attributes) : (Value.marker m).equal (.marker n) := by
  rw [hm.equal_iff hn, canonical, canonical, marker.injEq]
  cases hm with
  | marker built _ => exact (Marker.canonical_eq_iff built.nodup).2 ⟨name, perm.map _⟩

theorem equivalence_of_form {α β : Type} {P : α → Prop} {equal : α → α → Bool} {form : α → β}
    (h : ∀ x y, P x → P y → (equal x y ↔ form x = form y)) :
    Equivalence fun x y : {x // P x} => equal x.1 y.1 = true where
  refl x := (h x.1 x.1 x.2 x.2).2 rfl
  symm {x y} xy := (h y.1 x.1 y.2 x.2).2 ((h x.1 y.1 x.2 y.2).1 xy).symm
  trans {x y z} xy yz :=
    (h x.1 z.1 x.2 z.2).2 (((h x.1 y.1 x.2 y.2).1 xy).trans ((h y.1 z.1 y.2 z.2).1 yz))

end Value

/-- Equality is an equivalence on values without floats, on their tables and on their markers, and it
tells them apart as their canonical forms do. At every place inside a value, the order of the entries
of a table counts and the order of the attributes of a marker does not. -/
theorem Value.equal_iff_canonical_eq :
    (∀ v w : Value, v.Comparable → w.Comparable → (v.equal w ↔ v.canonical = w.canonical)) ∧
    (∀ t u : Table, (table t).Comparable → (table u).Comparable →
      (t.equal u ↔ t.canonical = u.canonical)) ∧
    (∀ m n : Marker, (marker m).Comparable → (marker n).Comparable →
      (m.equal n ↔ m.canonical = n.canonical)) ∧
    (Equivalence fun v w : {v : Value // v.Comparable} => v.1.equal w.1 = true) ∧
    (Equivalence fun t u : {t : Table // (table t).Comparable} => t.1.equal u.1 = true) ∧
    (Equivalence fun m n : {m : Marker // (marker m).Comparable} => m.1.equal n.1 = true) ∧
    (∀ (place : List Frame) (t u : Table), (within place (.table t)).Comparable →
      (within place (.table u)).Comparable → t.entries.Perm u.entries →
      ((within place (.table t)).equal (within place (.table u)) ↔ t.entries = u.entries)) ∧
    ∀ (place : List Frame) (m n : Marker), (within place (.marker m)).Comparable →
      (within place (.marker n)).Comparable → m.name = n.name →
      m.attributes.Perm n.attributes →
      (within place (.marker m)).equal (within place (.marker n)) := by
  have values (v w : Value) (hv : v.Comparable) (hw : w.Comparable) := hv.equal_iff hw
  have tables (t u : Table) (ht : (table t).Comparable) (hu : (table u).Comparable) :
      t.equal u ↔ t.canonical = u.canonical := by
    rw [← table.injEq]
    exact ht.equal_iff hu
  have markers (m n : Marker) (hm : (marker m).Comparable) (hn : (marker n).Comparable) :
      m.equal n ↔ m.canonical = n.canonical := by
    rw [← marker.injEq]
    exact hm.equal_iff hn
  refine ⟨values, tables, markers, equivalence_of_form values, equivalence_of_form tables,
    equivalence_of_form markers, ?_, ?_⟩
  · intro place t u ht hu perm
    rw [ht.equal_within_iff hu]
    exact ht.of_within.equal_table_iff_of_perm hu.of_within perm
  · intro place m n hm hn name perm
    rw [hm.equal_within_iff hn]
    exact hm.of_within.equal_marker_of_perm hn.of_within name perm

theorem Value.equal_iff_canonical_eq_reordered :
    let pair : Table := Table.ofList [.int 1, .int 2]
    let swapped : Table := (({} : Table).insert (.int 1) (.int 2)).insert (.int 0) (.int 1)
    let m : Marker := ⟨⟨"p", [("a", .scalar .integer), ("b", .tableOf (.scalar .integer))]⟩,
      [("a", .int 7), ("b", .table pair)]⟩
    let n : Marker := ⟨⟨"p", [("b", .tableOf (.scalar .mixed)), ("a", .scalar .mixed)]⟩,
      [("b", .table pair), ("a", .int 7)]⟩
    let place : List Frame := [.table [] (.int 0) [] 1]
    (within place (.marker m)).equal (within place (.marker n)) ∧
      (within place (.marker m)).canonical = (within place (.marker n)).canonical ∧
      ¬ (within place (.table pair)).equal (within place (.table swapped)) := by
  intro pair swapped m n place
  obtain ⟨values, -, -, -, -, -, tables, markers⟩ := equal_iff_canonical_eq
  have inside {v : Value} (h : v.Comparable) : (within place v).Comparable :=
    .table (Table.Built.empty.push v) (List.forall_mem_singleton.2 h)
  have two {t : Table} {k l : Key} {i j : Int64} (built : t.Built)
      (entries : t.entries = [(k, .int i), (l, .int j)]) : (Value.table t).Comparable := by
    refine .table built ?_
    rw [entries]
    exact List.forall_mem_cons.2 ⟨.int i, List.forall_mem_singleton.2 (.int j)⟩
  have hp : (Value.table pair).Comparable := two ((Table.Built.empty.push _).push _) rfl
  have hs : (Value.table swapped).Comparable :=
    two ((Table.Built.empty.insert _ _).insert _ _) rfl
  have hm : (Value.marker m).Comparable := by
    have first : (Marker.mk m.type [("a", .int 7)]).Built :=
      .set (k := "a") (v := .int 7) (.fresh m.type) rfl
    refine .marker (.set (k := "b") (v := .table pair) first rfl) ?_
    exact List.forall_mem_cons.2 ⟨.int 7, List.forall_mem_singleton.2 hp⟩
  have hn : (Value.marker n).Comparable := by
    have first : (Marker.mk n.type [("b", .table pair)]).Built :=
      .set (k := "b") (v := .table pair) (.fresh n.type) rfl
    refine .marker (.set (k := "a") (v := .int 7) first rfl) ?_
    exact List.forall_mem_cons.2 ⟨hp, List.forall_mem_singleton.2 (.int 7)⟩
  have equal := markers place m n (inside hm) (inside hn) rfl (.swap ..)
  refine ⟨equal, (values _ _ (inside hm) (inside hn)).1 equal, ?_⟩
  rw [tables place pair swapped (inside hp) (inside hs) (.swap ..)]
  intro same
  cases same

end DocMarks
