import DocMarks.Proofs.Entries
import DocMarks.Proofs.Json.Reading
import DocMarks.Proofs.Schema.WellFormed

namespace DocMarks

theorem mapM_eq_some_iff {α β : Type} {f : α → Option β} {xs : List α} {ys : List β} :
    xs.mapM f = some ys ↔ List.Forall₂ (fun x y => f x = some y) xs ys := by
  induction xs generalizing ys with
  | nil => cases ys <;> simp
  | cons x xs ih =>
    rw [List.mapM_cons]
    cases first : f x with
    | none => cases ys <;> simp [first]
    | some y =>
      cases rest : xs.mapM f with
      | none => cases ys <;> simp [← ih, rest]
      | some zs => cases ys <;> simp [← ih, rest, first]

theorem exists_of_mapM {α β : Type} {f : α → Option β} {xs : List α} {ys : List β} {y : β}
    (h : xs.mapM f = some ys) (mem : y ∈ ys) : ∃ x ∈ xs, f x = some y := by
  obtain ⟨i, hi, rfl⟩ := List.getElem_of_mem mem
  have all := mapM_eq_some_iff.1 h
  have hi' : i < xs.length := all.length_eq ▸ hi
  exact ⟨xs[i], List.getElem_mem hi', all.get hi' hi⟩

theorem mapM_of_forall_mem {α β : Type} {f : α → Option β} {g : α → β} {xs : List α}
    (h : ∀ x ∈ xs, f x = some (g x)) : xs.mapM f = some (xs.map g) := by
  rw [mapM_eq_some_iff, List.forall₂_map_right_iff, List.forall₂_same]
  exact h

namespace Json.Raw

variable {j r : Raw} {n : Nat}

theorem depthItems_le_iff {items : List Raw} :
    depthItems items ≤ n ↔ ∀ r ∈ items, r.depth ≤ n :=
  le_iff_of_max rfl fun _ _ => rfl

theorem depthMembers_le_iff {members : List (Units × Raw)} :
    depthMembers members ≤ n ↔ ∀ e ∈ members, e.2.depth ≤ n :=
  le_iff_of_max rfl fun _ _ => rfl

theorem depth_lt_of_list? {items : List Raw} (h : j.list? = some items) (mem : r ∈ items) :
    r.depth < j.depth := by
  cases j with
  | list items =>
    cases h
    exact Nat.lt_succ_of_le (depthItems_le_iff.1 (Nat.le_refl _) r mem)
  | _ => cases h

theorem depth_lt_of_object? {members : List (String × Raw)} (h : j.object? = some members)
    {k : String} (mem : (k, r) ∈ members) : r.depth < j.depth := by
  cases j with
  | object members =>
    obtain ⟨⟨us, r'⟩, mem, read⟩ := exists_of_mapM h mem
    obtain ⟨k', -, same⟩ := Option.map_eq_some_iff.1 read
    cases same
    exact Nat.lt_succ_of_le (depthMembers_le_iff.1 (Nat.le_refl _) (us, r) mem)
  | _ => cases h

theorem depth_lt_of_record? {names : List String} {strangers : Strangers}
    {fields : List (String × Raw)} (h : j.record? names strangers = some fields)
    {k : String} (mem : (k, r) ∈ fields) : r.depth < j.depth := by
  rw [record?.eq_def] at h
  split at h
  case h_1 items =>
    split at h
    case isTrue =>
      cases h
      exact depth_lt_of_list? rfl (List.of_mem_zip mem).2
    case isFalse => cases h
  case h_2 =>
    obtain ⟨members, read, h⟩ := Option.bind_eq_some_iff.1 h
    dsimp only at h
    split at h
    case isTrue => cases h
    case isFalse =>
      split at h
      case isTrue =>
        cases h
        exact depth_lt_of_object? read (List.mem_of_mem_filter mem)
      case isFalse => cases h

theorem chars?_map_some (s : String) : chars? (s.toList.map some) = some s := by
  have read : s.toList.mapM (id ∘ some) = some (s.toList.map id) := mapM_of_forall_mem fun _ _ => rfl
  rw [chars?, List.mapM_map, read, List.map_id, Option.map_some, String.ofList_toList]

end Json.Raw

namespace Json

variable {items : List Json} {members : List (String × Json)}

@[simp] theorem text?_raw_string (s : String) : (Json.string s).raw.text? = some s :=
  Raw.chars?_map_some s

@[simp] theorem list?_raw_list (items : List Json) :
    (Json.list items).raw.list? = some (items.map raw) := by
  rw [raw, rawItems_eq, Raw.list?]

@[simp] theorem object?_raw_object (members : List (String × Json)) :
    (Json.object members).raw.object? = some (members.map fun e => (e.1, e.2.raw)) := by
  rw [raw, rawMembers_eq, Raw.object?, List.mapM_map]
  apply mapM_of_forall_mem
  intro e _
  change (Raw.chars? _).map _ = _
  rw [Raw.chars?_map_some, Option.map_some]

theorem record?_raw_object {names : List String} (strangers : Raw.Strangers)
    (given : ∀ e ∈ members, e.1 ∈ names) (nodup : (Entries.keys members).Nodup) :
    (Json.object members).raw.record? names strangers =
      some (members.map fun e => (e.1, e.2.raw)) := by
  have all : (members.map fun e => (e.1, e.2.raw)).filter (fun e => names.contains e.1) =
      members.map fun e => (e.1, e.2.raw) := by
    rw [List.filter_eq_self, List.forall_mem_map]
    intro e mem
    exact List.contains_iff_mem.2 (given e mem)
  have distinct : ((members.map fun e => (e.1, e.2.raw)).map Prod.fst).Nodup := by
    rwa [List.map_map]
  rw [raw, Raw.record?.eq_def]
  simp only
  rw [← raw, object?_raw_object]
  simp only [Option.bind_eq_bind, Option.bind_some, all, Nat.lt_irrefl, and_false, if_false,
    distinct, if_true]

theorem depth_raw_list_le {n : Nat} (h : ∀ j ∈ items, j.raw.depth ≤ n) :
    (Json.list items).raw.depth ≤ n + 1 := by
  rw [raw, rawItems_eq, Raw.depth]
  apply Nat.succ_le_succ
  rwa [Raw.depthItems_le_iff, List.forall_mem_map]

theorem depth_raw_object_le {n : Nat} (h : ∀ e ∈ members, e.2.raw.depth ≤ n) :
    (Json.object members).raw.depth ≤ n + 1 := by
  rw [raw, rawMembers_eq, Raw.depth]
  apply Nat.succ_le_succ
  rwa [Raw.depthMembers_le_iff, List.forall_mem_map]

end Json

namespace Schema

open Json (Raw)

theorem ShapeExpr.listOfJson?_eq (items : List Raw) :
    listOfJson? items = items.mapM ofJson? := by
  induction items with
  | nil => rfl
  | cons j items ih =>
    rw [listOfJson?, ih, List.mapM_cons]

theorem attributesOfJson?_spec {j : Raw} {attributes : List (String × ShapeExpr)}
    (h : attributesOfJson? j = some attributes) :
    (Entries.keys attributes).Nodup ∧
      ∀ a ∈ attributes, ∃ r, ShapeExpr.ofJson? r = some a.2 ∧ r.depth < j.depth := by
  obtain ⟨members, object, h⟩ := Option.bind_eq_some_iff.1 h
  obtain ⟨written, read, h⟩ := Option.bind_eq_some_iff.1 h
  cases h
  refine ⟨Entries.nodup_keys_ofList written, ?_⟩
  intro a mem
  obtain ⟨⟨k, r⟩, member, shape⟩ := exists_of_mapM read (Entries.mem_of_mem_ofList mem)
  obtain ⟨e, read, rfl⟩ := Option.map_eq_some_iff.1 shape
  exact ⟨r, read, Raw.depth_lt_of_object? object member⟩

theorem TypeDecl.ofJson?_eq (j : Raw) :
    TypeDecl.ofJson? j = (j.record? ["name", "attributes"] .refused).bind fun fields =>
      ((Entries.get? fields "name").bind Raw.text?).bind fun name =>
        ((Entries.get? fields "attributes").elim (some []) attributesOfJson?).map (mk name) := by
  rw [TypeDecl.ofJson?, Option.bind_eq_bind]
  congr 1
  funext fields
  rw [Option.bind_eq_bind]
  congr 1
  funext name
  cases Entries.get? fields "attributes" with
  | none => rfl
  | some j => exact (Option.map_eq_bind ..).symm

theorem TypeDecl.ofJson?_spec {j : Raw} {d : TypeDecl} (h : TypeDecl.ofJson? j = some d) :
    (Entries.keys d.attributes).Nodup ∧
      ∀ a ∈ d.attributes, ∃ r, ShapeExpr.ofJson? r = some a.2 ∧ r.depth + 2 ≤ j.depth := by
  rw [TypeDecl.ofJson?_eq] at h
  obtain ⟨fields, record, h⟩ := Option.bind_eq_some_iff.1 h
  obtain ⟨name, -, h⟩ := Option.bind_eq_some_iff.1 h
  obtain ⟨attributes, read, rfl⟩ := Option.map_eq_some_iff.1 h
  cases field : Entries.get? fields "attributes" with
  | none =>
    rw [field] at read
    cases read
    exact ⟨.nil, fun _ mem => nomatch mem⟩
  | some r =>
    rw [field] at read
    obtain ⟨nodup, shapes⟩ := attributesOfJson?_spec read
    have below := Raw.depth_lt_of_record? record (Entries.mem_of_get? field)
    refine ⟨nodup, fun a mem => ?_⟩
    obtain ⟨r', shape, below'⟩ := shapes a mem
    exact ⟨r', shape, by omega⟩

theorem ofJson?_eq {j : Raw} (shallow : j.depth ≤ 127) :
    ofJson? j = (j.record? ["types", "register"] .refused).bind fun fields =>
      ((Entries.get? fields "types").bind Raw.list?).bind fun items =>
        (items.mapM TypeDecl.ofJson?).bind fun types =>
          ((Entries.get? fields "register").elim (some none) registeredOfJson?).map (mk types) := by
  rw [ofJson?, if_neg (Nat.not_lt.2 shallow)]
  change Option.bind _ _ = _
  congr 1
  funext fields
  rw [Option.bind_eq_bind]
  congr 1
  funext items
  rw [Option.bind_eq_bind]
  congr 1
  funext types
  cases Entries.get? fields "register" with
  | none => rfl
  | some j => exact (Option.map_eq_bind ..).symm

theorem depth_le_of_ofJson? {j : Raw} {s : Schema} (h : ofJson? j = some s) : j.depth ≤ 127 := by
  rw [ofJson?] at h
  split at h
  case isTrue => cases h
  case isFalse shallow => exact Nat.not_lt.1 shallow

theorem ofJson?_spec {j : Raw} {s : Schema} (h : ofJson? j = some s) :
    ∀ d ∈ s.types, ∃ r, TypeDecl.ofJson? r = some d ∧ r.depth + 2 ≤ 127 := by
  have shallow := depth_le_of_ofJson? h
  rw [ofJson?_eq shallow] at h
  obtain ⟨fields, record, h⟩ := Option.bind_eq_some_iff.1 h
  obtain ⟨items, list, h⟩ := Option.bind_eq_some_iff.1 h
  obtain ⟨types, read, h⟩ := Option.bind_eq_some_iff.1 h
  obtain ⟨registered, -, rfl⟩ := Option.map_eq_some_iff.1 h
  intro d mem
  obtain ⟨r, item, decl⟩ := exists_of_mapM read mem
  obtain ⟨r', field, list⟩ := Option.bind_eq_some_iff.1 list
  have below := Raw.depth_lt_of_record? record (Entries.mem_of_get? field)
  have below' := Raw.depth_lt_of_list? list item
  exact ⟨r, decl, by omega⟩

end Schema

end DocMarks
