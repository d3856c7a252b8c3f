import DocMarks.Shape

namespace DocMarks

structure Vocabulary where
  types : List MarkerType
  distinct : (types.map MarkerType.name).Nodup

namespace Vocabulary

def empty : Vocabulary := ⟨[], .nil⟩

instance : EmptyCollection Vocabulary := ⟨empty⟩

structure Duplicate where
  name : String
  deriving DecidableEq, Repr

def Duplicate.message (d : Duplicate) : String := s!"node type `{d.name}` is already registered"

def names (v : Vocabulary) : List String := v.types.map MarkerType.name

def lookup? (v : Vocabulary) (name : String) : Option MarkerType :=
  v.types.find? fun t => t.name == name

def contains (v : Vocabulary) (name : String) : Bool := (v.lookup? name).isSome

def size (v : Vocabulary) : Nat := v.types.length

def isEmpty (v : Vocabulary) : Bool := v.types.isEmpty

theorem nodup_append_name {types : List MarkerType} {t : MarkerType}
    (h : (types.map MarkerType.name).Nodup) (new : t.name ∉ types.map MarkerType.name) :
    ((types ++ [t]).map MarkerType.name).Nodup := by
  rw [List.map_append, List.nodup_append]
  refine ⟨h, by simp, ?_⟩
  intro a ha b hb
  simp only [List.map_cons, List.map_nil, List.mem_singleton] at hb
  rintro rfl
  exact new (hb ▸ ha)

def register (v : Vocabulary) (t : MarkerType) : Except Duplicate Vocabulary :=
  if h : t.name ∈ v.types.map MarkerType.name then .error ⟨t.name⟩
  else .ok ⟨v.types ++ [t], nodup_append_name v.distinct h⟩

theorem register_eq_ok_iff (v w : Vocabulary) (t : MarkerType) :
    v.register t = .ok w ↔ t.name ∉ v.names ∧ w.types = v.types ++ [t] := by
  unfold register names
  by_cases h : t.name ∈ v.types.map MarkerType.name
  · simp only [h, dif_pos, reduceCtorEq, not_true, false_and]
  · rcases w with ⟨types, distinct⟩
    simp only [h, dif_neg, not_false_eq_true, Except.ok.injEq, Vocabulary.mk.injEq, true_and,
      eq_comm]

theorem lookup?_eq_some_iff (v : Vocabulary) (name : String) (t : MarkerType) :
    v.lookup? name = some t ↔ t ∈ v.types ∧ t.name = name := by
  rcases v with ⟨types, distinct⟩
  unfold lookup?
  induction types with
  | nil => simp
  | cons u us ih =>
    simp only [List.map_cons, List.nodup_cons] at distinct
    by_cases h : u.name = name
    · simp only [List.find?_cons, h, beq_self_eq_true, Option.some.injEq, List.mem_cons]
      constructor
      · rintro rfl
        exact ⟨.inl rfl, h⟩
      · rintro ⟨rfl | m, rfl⟩
        · rfl
        · exact absurd (List.mem_map_of_mem m) (h ▸ distinct.1)
    · simp only [List.find?_cons, beq_eq_false_iff_ne.2 h, ih distinct.2, List.mem_cons]
      constructor
      · rintro ⟨m, rfl⟩
        exact ⟨.inr m, rfl⟩
      · rintro ⟨rfl | m, rfl⟩
        · exact absurd rfl h
        · exact ⟨m, rfl⟩

def registerAll (v : Vocabulary) : List MarkerType → Except Duplicate Vocabulary
  | [] => .ok v
  | t :: ts => do
    let v ← v.register t
    v.registerAll ts

end Vocabulary
end DocMarks
