import Mathlib
import DocMarks.Proofs.Grammar.Soundness

/-! Values that suit their shapes all the way down. Setting an attribute compares a nested marker
with its shape by name only; what is read from a comment nevertheless has the declared types at
every depth. -/

namespace DocMarks

inductive Shape.Conforms : Shape → Value → Prop
  | string (s : String) : Shape.Conforms (.scalar .string) (.string s)
  | integer (i : Int64) : Shape.Conforms (.scalar .integer) (.int i)
  | float (x : Binary64) : Shape.Conforms (.scalar .float) (.float x)
  | bool (b : Bool) : Shape.Conforms (.scalar .bool) (.bool b)
  | mixed {v : Value} : v.isScalar → Shape.Conforms (.scalar .mixed) v
  | table {s : Shape} {t : Table} : (∀ e ∈ t.entries, Shape.Conforms s e.2) →
      Shape.Conforms (.tableOf s) (.table t)
  | marker {m : Marker} : (∀ e ∈ m.attributes, (m.type.shape? e.1).isSome) →
      (∀ e ∈ m.attributes, ∀ s, m.type.shape? e.1 = some s → Shape.Conforms s e.2) →
      Shape.Conforms (.marker m.type) (.marker m)

def Marker.WellTyped (m : Marker) : Prop :=
  ∀ e ∈ m.attributes, ∃ s, m.type.shape? e.1 = some s ∧ s.Conforms e.2

theorem Shape.conforms_marker_iff {t : MarkerType} {m : Marker} :
    (Shape.marker t).Conforms (.marker m) ↔ m.type = t ∧ m.WellTyped := by
  constructor
  · intro h
    cases h with
    | marker declared typed =>
      refine ⟨rfl, ?_⟩
      intro e he
      obtain ⟨s, hs⟩ := Option.isSome_iff_exists.1 (declared e he)
      exact ⟨s, hs, typed e he s hs⟩
  · intro ⟨type, typed⟩
    subst type
    apply Conforms.marker
    · intro e he
      obtain ⟨s, hs, -⟩ := typed e he
      rw [hs]
      rfl
    · intro e he s hs
      obtain ⟨s', hs', h⟩ := typed e he
      rw [hs'] at hs
      cases hs
      exact h

theorem Shape.Conforms.admits {s : Shape} {v : Value} (h : s.Conforms v) : s.admits v := by
  induction h with
  | string => rfl
  | integer => rfl
  | float => rfl
  | bool => rfl
  | mixed h => exact h
  | table _ ih =>
    rw [Shape.admits, List.all_eq_true]
    intro v hv
    obtain ⟨e, he, rfl⟩ := List.mem_map.1 hv
    exact ih e he
  | marker _ _ _ => simp [Shape.admits]

theorem Literal.conforms_of_coerce {l : Literal} {text : String} {kind : ScalarKind} {v : Value}
    (h : l.coerce text kind = .ok v) : (Shape.scalar kind).Conforms v := by
  cases kind with
  | mixed =>
    cases h
    apply Shape.Conforms.mixed
    cases l <;> rfl
  | string => cases l <;> cases h <;> exact .string _
  | integer =>
    cases l with
    | float x =>
      rw [coerce] at h
      split at h <;> cases h
      exact .integer _
    | _ => cases h <;> exact .integer _
  | float =>
    cases l <;> cases h
    exact .float _
  | bool =>
    cases l <;> cases h
    exact .bool _

theorem Table.forall_writeAll {P : Value → Prop} (written : List (Option Key × Value)) (t : Table)
    (old : ∀ e ∈ t.entries, P e.2) (new : ∀ i ∈ written, P i.2) :
    ∀ e ∈ (t.writeAll written).entries, P e.2 := by
  induction written generalizing t with
  | nil => exact old
  | cons i written ih =>
    apply ih
    · intro e he
      have hput : ∃ k, e ∈ Entries.put t.entries k i.2 := by
        obtain ⟨_ | k, v⟩ := i
        · exact ⟨t.nextKey, he⟩
        · exact ⟨k, he⟩
      obtain ⟨k, hput⟩ := hput
      cases Entries.mem_put hput with
      | inl h => exact old e h
      | inr h =>
        rw [h]
        exact new i (.head _)
    · intro j hj
      exact new j (.tail _ hj)

theorem Marker.forall_setAll {P : String × Value → Prop} {sets : List (String × Value)}
    {m m' : Marker} (h : m.setAll sets = .ok m') (old : ∀ e ∈ m.attributes, P e)
    (new : ∀ e ∈ sets, P e) : m'.type = m.type ∧ ∀ e ∈ m'.attributes, P e := by
  induction sets generalizing m with
  | nil =>
    cases h
    exact ⟨rfl, old⟩
  | cons e sets ih =>
    obtain ⟨n, hset, h⟩ := (setAll_cons_eq_ok_iff ..).1 h
    obtain ⟨type, attributes⟩ := ih h
      (by
        intro e' he
        rw [((set_eq_ok_iff ..).1 hset).2] at he
        cases Entries.mem_put he with
        | inl h => exact old e' h
        | inr h =>
          rw [h]
          exact new _ (.head _))
      (fun e' he => new e' (.tail _ he))
    exact ⟨type.trans (type_of_set hset), attributes⟩

theorem Marker.wellTyped_of_setAll {t : MarkerType} {sets : List (String × Value)} {m : Marker}
    (h : (Marker.fresh t).setAll sets = .ok m)
    (typed : ∀ e ∈ sets, ∃ s, t.shape? e.1 = some s ∧ s.Conforms e.2) :
    m.type = t ∧ m.WellTyped := by
  obtain ⟨type, attributes⟩ := forall_setAll h (by simp [fresh]) typed
  refine ⟨type, ?_⟩
  rw [WellTyped, type]
  exact attributes

mutual

theorem Shape.Derives.conforms {s : Shape} {n : Nat} {ts : List Token} {v : Value} :
    s.Derives n ts v → s.Conforms v
  | .scalar _ hv => Literal.conforms_of_coerce hv
  | .table _ items _ => .table (Table.forall_writeAll _ {} (fun _ h => nomatch h) items.conforms)
  | .untagged h hm => Shape.conforms_marker_iff.2 (Marker.wellTyped_of_setAll hm h.conforms)
  | .tagged _ _ h hm => Shape.conforms_marker_iff.2 (Marker.wellTyped_of_setAll hm h.conforms)

theorem Shape.DerivesItems.conforms {s : Shape} {n : Nat} {ts : List Token}
    {written : List (Option Key × Value)} :
    s.DerivesItems n ts written → ∀ i ∈ written, s.Conforms i.2
  | .nil => fun _ h => nomatch h
  | .comma _ h => h.conforms
  | .keyed _ _ hv h => List.forall_mem_cons.2 ⟨hv.conforms, h.conforms⟩
  | .pushed hv h => List.forall_mem_cons.2 ⟨hv.conforms, h.conforms⟩

theorem MarkerType.DerivesAttributes.conforms {t : MarkerType} {n : Nat} {ts : List Token}
    {sets : List (String × Value)} :
    t.DerivesAttributes n ts sets → ∀ e ∈ sets, ∃ s, t.shape? e.1 = some s ∧ s.Conforms e.2
  | .list _ h _ => h.conforms

theorem MarkerType.DerivesEntries.conforms {t : MarkerType} {n : Nat} {ts : List Token}
    {sets : List (String × Value)} :
    t.DerivesEntries n ts sets → ∀ e ∈ sets, ∃ s, t.shape? e.1 = some s ∧ s.Conforms e.2
  | .nil => fun _ h => nomatch h
  | .comma _ h => h.conforms
  | .entry _ hs _ hv h => List.forall_mem_cons.2 ⟨⟨_, hs, hv.conforms⟩, h.conforms⟩

end

/-- The type of the marker is the one that is registered under its name, and it is well typed. -/
def Vocabulary.Types (v : Vocabulary) (m : Marker) : Prop :=
  v.lookup? m.name = some m.type ∧ m.WellTyped

theorem Vocabulary.types_of_lookup? {v : Vocabulary} {name : String} {m : Marker}
    (known : v.lookup? name = some m.type) (typed : m.WellTyped) : v.Types m := by
  refine ⟨?_, typed⟩
  rw [Marker.name, ((v.lookup?_eq_some_iff name m.type).1 known).2, known]

theorem Rule.marker?_types {v : Vocabulary} {a : Allowance} {c d : Cursor} {m : Marker}
    (ends : c.Ends) (h : marker? v a c = .ok (some m, d)) : v.Types m := by
  rcases marker?_eq_ok_iff.1 h with ⟨-, h, -⟩ | ⟨name, -, ⟨-, h, -⟩ | ⟨t, known, h⟩⟩
  · cases h
  · cases h
  · rcases h with ⟨-, h, -⟩ | ⟨m, -, h, hm⟩
    · cases h
      exact Vocabulary.types_of_lookup? known (by simp [Marker.WellTyped, Marker.fresh])
    · cases h
      obtain ⟨n, -, hm⟩ := nested_eq_ok_iff.1 hm
      obtain ⟨ts, sets, -, derived, hset⟩ := attributes_sound t.sound ends.step.step hm
      obtain ⟨rfl, typed⟩ := Marker.wellTyped_of_setAll hset derived.conforms
      exact Vocabulary.types_of_lookup? known typed

theorem Dialect.markers_types {d : Dialect} {body : String} {ms : List Marker}
    (h : d.markers body = .ok ms) : ∀ m ∈ ms, d.vocabulary.Types m :=
  forall_mem_markers (fun _ _ => Rule.marker?_types) h

theorem Findings.forall_ofMarkers {P : Marker → Prop} {ms : List Marker} (h : ∀ m ∈ ms, P m) :
    ∀ e ∈ (Findings.ofMarkers ms).entries, ∀ m ∈ e.2.markers, P m := by
  suffices ∀ f : Findings, (∀ e ∈ f.entries, ∀ m ∈ e.2.markers, P m) →
      ∀ e ∈ (ms.foldl Findings.insert f).entries, ∀ m ∈ e.2.markers, P m by
    exact this {} (fun _ he => nomatch he)
  induction ms with
  | nil => exact fun _ old => old
  | cons m ms ih =>
    intro f old
    apply ih (fun m' hm' => h m' (.tail _ hm'))
    intro e he m' hm'
    rw [Findings.insert] at he
    split at he
    case h_1 =>
      cases Entries.mem_put he with
      | inl he => exact old e he m' hm'
      | inr he =>
        subst he
        cases List.mem_singleton.1 hm'
        exact h m (.head _)
    case h_2 finding hf =>
      cases Entries.mem_put he with
      | inl he => exact old e he m' hm'
      | inr he =>
        subst he
        cases List.mem_append.1 hm' with
        | inl hm' => exact old _ (Entries.mem_of_get? hf) m' hm'
        | inr hm' =>
          cases List.mem_singleton.1 hm'
          exact h m (.head _)

/-- What is read from a comment is well typed at every depth. -/
theorem Dialect.read_wellTyped (d : Dialect) (body : String) (f : Findings)
    (h : d.read body = .ok f) :
    ∀ e ∈ f.entries, ∀ m ∈ e.2.markers,
      d.vocabulary.lookup? m.name = some m.type ∧ m.WellTyped := by
  rw [Dialect.read] at h
  cases hm : d.markers body with
  | error e => simp [hm, Except.map] at h
  | ok ms =>
    simp only [hm, Except.map, Except.ok.injEq] at h
    subst h
    exact Findings.forall_ofMarkers (Dialect.markers_types hm)

theorem Dialect.read_wellTyped_nested :
    ∃ (d : Dialect) (m : Marker),
      d.read "@p(k = \x7ba: @q(n = 1)\x7d)" = .ok ⟨[("p", .once m)]⟩ ∧ m.attributes ≠ [] ∧
        d.vocabulary.lookup? m.name = some m.type ∧ m.WellTyped := by
  have h : Dialect.read
      ⟨⟨[⟨"p", [("k", .tableOf (.marker ⟨"q", [("n", .scalar .integer)]⟩))]⟩], by simp⟩, ⟨3⟩⟩
      "@p(k = \x7ba: @q(n = 1)\x7d)" =
        .ok ⟨[("p", .once ⟨⟨"p", [("k", .tableOf (.marker ⟨"q", [("n", .scalar .integer)]⟩))]⟩,
          [("k", .table ⟨[(.string "a",
            .marker ⟨⟨"q", [("n", .scalar .integer)]⟩, [("n", .int 1)]⟩)], 0⟩)]⟩)]⟩ := by
    cbv
  exact ⟨_, _, h, by simp, read_wellTyped _ _ _ h _ (.head _) _ (.head _)⟩

end DocMarks
