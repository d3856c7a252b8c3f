import DocMarks.Findings
import DocMarks.Proofs.Entries

namespace DocMarks

namespace Finding

def followedBy (m : Marker) : Option Finding → Finding
  | none => .once m
  | some x => x.add m

def join? : Option Finding → Option Finding → Option Finding
  | some x, some y => some (.repeated (x.markers ++ y.markers))
  | some x, none => some x
  | none, y? => y?

theorem join?_none (x? : Option Finding) : join? x? none = x? := by
  cases x? with
  | none => rfl
  | some x => rfl

theorem join?_once (x? : Option Finding) (m : Marker) :
    join? x? (some (.once m)) = some (followedBy m x?) := by
  cases x? with
  | none => rfl
  | some x => rfl

theorem join?_assoc (x? y? z? : Option Finding) :
    join? (join? x? y?) z? = join? x? (join? y? z?) := by
  cases x? with
  | none => rfl
  | some x =>
    cases y? with
    | none => rfl
    | some y =>
      cases z? with
      | none => rfl
      | some z => simp only [join?, markers, List.append_assoc]

theorem mem_markers_followedBy {m n : Marker} {x? : Option Finding} :
    n ∈ (followedBy m x?).markers ↔ (∃ x ∈ x?, n ∈ x.markers) ∨ n = m := by
  cases x? with
  | none => simp [followedBy, markers]
  | some x => simp [followedBy, add, markers]

end Finding

namespace Findings

variable {f g : Findings} {m n : Marker} {ms : List Marker} {name : String}

theorem insert_eq (f : Findings) (m : Marker) :
    f.insert m = ⟨Entries.put f.entries m.name (Finding.followedBy m (f.get? m.name))⟩ := by
  rw [insert]
  cases f.get? m.name with
  | none => rfl
  | some x => rfl

theorem get?_insert (f : Findings) (m : Marker) (name : String) :
    (f.insert m).get? name =
      if m.name = name then some (Finding.followedBy m (f.get? name)) else f.get? name := by
  rw [insert_eq, get?, Entries.get?_put]
  by_cases h : m.name = name
  · rw [if_pos h, if_pos h, h]
  · rw [if_neg h, if_neg h, get?]

theorem contains_insert : (f.insert m).contains name ↔ m.name = name ∨ f.contains name := by
  change ((f.insert m).get? name).isSome ↔ m.name = name ∨ (f.get? name).isSome
  rw [get?_insert]
  by_cases h : m.name = name
  · simp [h]
  · simp [h]

theorem not_mem_of_get? (h : f.get? name = none) : name ∉ Entries.keys f.entries := by
  rw [← Entries.contains_iff, Entries.contains, ← get?, h]
  simp

theorem contains_foldl_insert (h : f.contains name ∨ ∃ m ∈ ms, m.name = name) :
    (ms.foldl insert f).contains name := by
  induction ms generalizing f with
  | nil => simpa using h
  | cons m ms ih =>
    apply ih
    rw [contains_insert]
    simp only [List.mem_cons, exists_eq_or_imp] at h
    rcases h with old | first | later
    · exact .inl (.inr old)
    · exact .inl (.inl first)
    · exact .inr later

theorem insert_comm (ne : m.name ≠ n.name) (old : f.contains m.name) :
    (f.insert m).insert n = (f.insert n).insert m := by
  rw [insert_eq (f.insert m), insert_eq (f.insert n), get?_insert, get?_insert, if_neg ne,
    if_neg (Ne.symm ne), insert_eq f m, insert_eq f n]
  exact congrArg Findings.mk (Entries.put_comm ne (Entries.contains_iff.1 old))

/-- A marker of a name that is there may wait for markers of other names. -/
theorem foldl_insert_comm (others : ∀ n ∈ ms, m.name ≠ n.name) (old : f.contains m.name) :
    ms.foldl insert (f.insert m) = (ms.foldl insert f).insert m := by
  induction ms generalizing f with
  | nil => rfl
  | cons n ms ih =>
    rw [List.forall_mem_cons] at others
    rw [List.foldl_cons, List.foldl_cons, insert_comm others.1 old]
    exact ih others.2 (contains_insert.2 (.inr old))

structure Grouped (f : Findings) : Prop where
  distinct : f.names.Nodup
  named : ∀ e ∈ f.entries, ∀ m ∈ e.2.markers, m.name = e.1
  nonempty : ∀ e ∈ f.entries, ∃ m, m ∈ e.2.markers

theorem Grouped.insert (h : f.Grouped) (m : Marker) : (f.insert m).Grouped := by
  rw [insert_eq]
  refine ⟨Entries.nodup_keys_put _ _ h.distinct, ?_, ?_⟩
  · intro e he n hn
    rcases Entries.mem_put he with he | rfl
    · exact h.named e he n hn
    · rcases Finding.mem_markers_followedBy.1 hn with ⟨x, hx, hn⟩ | rfl
      · exact h.named _ (Entries.mem_of_get? hx) n hn
      · rfl
  · intro e he
    rcases Entries.mem_put he with he | rfl
    · exact h.nonempty e he
    · exact ⟨m, Finding.mem_markers_followedBy.2 (.inr rfl)⟩

theorem grouped_empty : Grouped {} where
  distinct := .nil
  named _ h := nomatch h
  nonempty _ h := nomatch h

theorem grouped_foldl_insert (h : f.Grouped) (ms : List Marker) : (ms.foldl insert f).Grouped := by
  induction ms generalizing f with
  | nil => exact h
  | cons m ms ih => exact ih (h.insert m)

theorem grouped_ofMarkers (ms : List Marker) : (ofMarkers ms).Grouped :=
  grouped_foldl_insert grouped_empty ms

def markers (f : Findings) : List Marker := f.entries.flatMap (·.2.markers)

def extend (f g : Findings) : Findings := g.markers.foldl insert f

theorem markers_insert_perm (f : Findings) (m : Marker) :
    (f.insert m).markers.Perm (f.markers ++ [m]) := by
  rw [insert_eq, markers, markers]
  cases old : f.get? m.name with
  | none =>
    rw [Entries.put_of_not_mem _ (not_mem_of_get? old), List.flatMap_append]
    exact .refl _
  | some x =>
    obtain ⟨front, back, entries, written⟩ := Entries.put_of_get? old
    rw [written, entries, List.flatMap_append, List.flatMap_append, List.append_assoc,
      List.flatMap_cons, List.flatMap_cons, List.append_assoc]
    apply List.Perm.append_left
    have added : (Finding.followedBy m (some x)).markers = x.markers ++ [m] := rfl
    rw [added, List.append_assoc]
    exact List.perm_append_comm.append_left _

theorem markers_ofMarkers_perm (ms : List Marker) : (ofMarkers ms).markers.Perm ms := by
  suffices ∀ f : Findings, (ms.foldl insert f).markers.Perm (f.markers ++ ms) from this {}
  induction ms with
  | nil => exact fun f => by simp
  | cons m ms ih =>
    intro f
    have rest := (ih (f.insert m)).trans ((markers_insert_perm f m).append_right ms)
    rwa [List.append_assoc, List.singleton_append] at rest

theorem extend_insert (grouped : g.Grouped) (f : Findings) (m : Marker) :
    f.extend (g.insert m) = (f.extend g).insert m := by
  rw [insert_eq, extend, extend, markers, markers]
  cases old : g.get? m.name with
  | none =>
    rw [Entries.put_of_not_mem _ (not_mem_of_get? old), List.flatMap_append, List.foldl_append]
    rfl
  | some x =>
    obtain ⟨front, back, entries, written⟩ := Entries.put_of_get? old
    obtain ⟨distinct, named, nonempty⟩ := grouped
    rw [names, entries, Entries.keys, List.map_append, List.map_cons, List.nodup_append,
      List.nodup_cons] at distinct
    rw [entries] at named nonempty
    have place : ∀ y : Finding, (front ++ (m.name, y) :: back).flatMap (·.2.markers) =
        front.flatMap (·.2.markers) ++ y.markers ++ back.flatMap (·.2.markers) := by
      intro y
      rw [List.flatMap_append, List.flatMap_cons, List.append_assoc]
    have added : (Finding.followedBy m (some x)).markers = x.markers ++ [m] := rfl
    rw [written, entries, place, place, added]
    simp only [List.foldl_append, List.foldl_cons, List.foldl_nil]
    apply foldl_insert_comm
    · intro n hn same
      obtain ⟨e, he, hn⟩ := List.mem_flatMap.1 hn
      have key : m.name = e.1 := same.trans (named e (by simp [he]) n hn)
      exact distinct.2.1.1 (List.mem_map.2 ⟨e, he, key.symm⟩)
    · obtain ⟨n, hn⟩ := nonempty (m.name, x) (by simp)
      exact contains_foldl_insert (.inr ⟨n, hn, named (m.name, x) (by simp) n hn⟩)

theorem foldl_insert_extend (grouped : g.Grouped) (f : Findings) (ms : List Marker) :
    ms.foldl insert (f.extend g) = f.extend (ms.foldl insert g) := by
  induction ms generalizing g with
  | nil => rfl
  | cons m ms ih =>
    rw [List.foldl_cons, List.foldl_cons, ← extend_insert grouped, ih (grouped.insert m)]

theorem extend_ofMarkers (f : Findings) (ms : List Marker) :
    f.extend (ofMarkers ms) = ms.foldl insert f :=
  (foldl_insert_extend grouped_empty f ms).symm

theorem ofMarkers_append (ms ns : List Marker) :
    ofMarkers (ms ++ ns) = (ofMarkers ms).extend (ofMarkers ns) := by
  rw [extend_ofMarkers, ofMarkers, List.foldl_append, ofMarkers]

theorem get?_foldl_insert (f : Findings) (ms : List Marker) (name : String) :
    (ms.foldl insert f).get? name =
      Finding.join? (f.get? name) ((ofMarkers ms).get? name) := by
  induction ms generalizing f with
  | nil => exact (Finding.join?_none _).symm
  | cons m ms ih =>
    have first : (f.insert m).get? name =
        Finding.join? (f.get? name) ((insert {} m).get? name) := by
      rw [get?_insert, get?_insert]
      by_cases h : m.name = name
      · rw [if_pos h, if_pos h, ← Finding.join?_once]
        rfl
      · rw [if_neg h, if_neg h]
        exact (Finding.join?_none _).symm
    rw [ofMarkers, List.foldl_cons, List.foldl_cons, ih, ih (insert {} m), first,
      Finding.join?_assoc]

theorem get?_extend (f : Findings) (ms : List Marker) (name : String) :
    (f.extend (ofMarkers ms)).get? name =
      Finding.join? (f.get? name) ((ofMarkers ms).get? name) := by
  rw [extend_ofMarkers, get?_foldl_insert]

end Findings
end DocMarks
