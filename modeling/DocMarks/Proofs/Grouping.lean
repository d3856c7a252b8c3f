import Mathlib
import DocMarks.Proofs.Occurrence

namespace DocMarks

namespace Finding

def ofList? : List Marker → Option Finding
  | [] => none
  | [m] => some (.once m)
  | ms => some (.repeated ms)

theorem ofList?_concat (ms : List Marker) (m : Marker) :
    ofList? (ms ++ [m]) = some (followedBy m (ofList? ms)) := by
  match ms with
  | [] => rfl
  | [_] => rfl
  | _ :: _ :: _ => rfl

structure Collects (x : Finding) (ms : List Marker) : Prop where
  markers_eq : x.markers = ms
  once_iff : (∃ m, x = .once m) ↔ ms.length = 1
  several : ∀ ns, x = .repeated ns → 2 ≤ ns.length
  once?_eq_some_iff : ∀ m, x.once? = some m ↔ ms = [m]
  isRepeated_iff : x.isRepeated ↔ 2 ≤ ms.length

theorem collects_of_ofList? {ms : List Marker} {x : Finding} (h : ofList? ms = some x) :
    x.Collects ms := by
  match ms, h with
  | [m], rfl => constructor <;> simp [markers, once?, isRepeated]
  | m :: n :: ms, rfl => constructor <;> simp [markers, once?, isRepeated]

end Finding

namespace Findings

variable {ms : List Marker}

theorem ofMarkers_concat (ms : List Marker) (m : Marker) :
    ofMarkers (ms ++ [m]) = (ofMarkers ms).insert m := by
  rw [ofMarkers, List.foldl_append]
  rfl

theorem get?_ofMarkers (ms : List Marker) (name : String) :
    (ofMarkers ms).get? name = Finding.ofList? (ms.filter (·.name = name)) := by
  induction ms using List.reverseRecOn with
  | nil => rfl
  | append_singleton ms m ih =>
    rw [ofMarkers_concat, get?_insert, ih, List.filter_append]
    by_cases h : m.name = name
    · rw [if_pos h, List.filter_cons_of_pos (by simpa using h), List.filter_nil,
        Finding.ofList?_concat]
    · rw [if_neg h, List.filter_cons_of_neg (by simpa using h), List.filter_nil, List.append_nil]

theorem names_ofMarkers (ms : List Marker) :
    (ofMarkers ms).names = (ms.map Marker.name).eraseDups := by
  induction ms using List.reverseRecOn with
  | nil => rfl
  | append_singleton ms m ih =>
    rw [names] at ih ⊢
    rw [ofMarkers_concat, insert_eq, List.map_append]
    exact Entries.keys_put_of_eraseDups ih m.name _

structure Groups (f : Findings) (ms : List Marker) : Prop where
  names_eq : f.names = (ms.map Marker.name).eraseDups
  markers_perm : f.markers.Perm ms
  mem_entries_iff : ∀ name x, (name, x) ∈ f.entries ↔ f.get? name = some x
  get?_collects : ∀ name x, f.get? name = some x → x.Collects (ms.filter (·.name = name))
  get?_eq_none_iff : ∀ name, f.get? name = none ↔ name ∉ ms.map Marker.name
  contains_iff : ∀ name, f.contains name ↔ name ∈ ms.map Marker.name
  size_eq : f.size = (ms.map Marker.name).eraseDups.length

theorem ofMarkers_groups (ms : List Marker) : (ofMarkers ms).Groups ms := by
  have distinct := (grouped_ofMarkers ms).distinct
  have contains : ∀ name, (ofMarkers ms).contains name ↔ name ∈ ms.map Marker.name := by
    intro name
    rw [Findings.contains, Entries.contains_iff, ← names, names_ofMarkers, List.mem_eraseDups]
  constructor
  case names_eq => exact names_ofMarkers ms
  case markers_perm => exact markers_ofMarkers_perm ms
  case mem_entries_iff =>
    intro name x
    exact ⟨Entries.get?_of_mem distinct, Entries.mem_of_get?⟩
  case get?_collects =>
    intro name x found
    rw [get?_ofMarkers] at found
    exact Finding.collects_of_ofList? found
  case get?_eq_none_iff =>
    intro name
    rw [← contains, Findings.contains, Entries.contains, ← get?, Option.not_isSome_iff_eq_none]
  case contains_iff => exact contains
  case size_eq =>
    rw [← names_ofMarkers, names, Entries.keys, List.length_map]
    rfl

end Findings

/-- Markers inserted one after the other are grouped by name, and what is read from a comment is this
grouping of the markers that its tokens are cut into. -/
theorem Findings.groups_by_name :
    (∀ ms : List Marker, (ms.foldl insert {}).Groups ms) ∧
      ∀ (d : Dialect) (body : String) (f : Findings), d.read body = .ok f →
        ∃ ps, d.Cuts body ps ∧ f.Groups (Piece.markersOf ps) := by
  refine ⟨ofMarkers_groups, ?_⟩
  intro d body f read
  obtain ⟨ps, cuts, rfl⟩ := (Dialect.read_eq_ok_iff_cuts (Dialect.known_of_read read)).1 read
  exact ⟨ps, cuts, ofMarkers_groups _⟩

theorem Findings.groups_by_name_promoted :
    ∃ (d : Dialect) (f : Findings) (x : Finding), d.read "@a @b @a(k = 1) @a" = .ok f ∧
      f.names = ["a", "b"] ∧ f.get? "a" = some x ∧ x.isRepeated ∧ x.markers.length = 3 ∧
      ∃ ps, d.Cuts "@a @b @a(k = 1) @a" ps ∧ f.Groups (Piece.markersOf ps) := by
  let d : Dialect := ⟨⟨[⟨"a", [("k", .scalar .integer)]⟩, ⟨"b", []⟩], by simp⟩, ⟨1⟩⟩
  have read : ∃ f x, d.read "@a @b @a(k = 1) @a" = .ok f ∧ f.names = ["a", "b"] ∧
      f.get? "a" = some x ∧ x.isRepeated ∧ x.markers.length = 3 :=
    ⟨_, _, by cbv, by cbv, by cbv, by cbv, by cbv⟩
  obtain ⟨f, x, read, names, found, repeated, three⟩ := read
  exact ⟨d, f, x, read, names, found, repeated, three, groups_by_name.2 d _ f read⟩

end DocMarks
