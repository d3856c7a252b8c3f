import Mathlib
import DocMarks.Proofs.Value.Built

namespace DocMarks

theorem Value.isScalar_iff {v : Value} :
    v.isScalar ↔ (∀ t, v ≠ .table t) ∧ ∀ m, v ≠ .marker m := by
  cases v <;> simp [Value.isScalar]

namespace Shape

/-- What a shape takes: a scalar of its kind, a table of what its item takes, or a marker of the name
that it gives, whatever is set in it. -/
inductive Takes : Shape → Value → Prop
  | string (s : String) : Takes (.scalar .string) (.string s)
  | integer (i : Int64) : Takes (.scalar .integer) (.int i)
  | float (x : Binary64) : Takes (.scalar .float) (.float x)
  | bool (b : Bool) : Takes (.scalar .bool) (.bool b)
  | mixed {v : Value} : (∀ t, v ≠ .table t) → (∀ m, v ≠ .marker m) → Takes (.scalar .mixed) v
  | table {s : Shape} {t : Table} : (∀ e ∈ t.entries, Takes s e.2) → Takes (.tableOf s) (.table t)
  | marker {t : MarkerType} {m : Marker} : m.type.name = t.name → Takes (.marker t) (.marker m)

theorem admits_tableOf_iff {s : Shape} {t : Table} :
    (tableOf s).admits (.table t) ↔ ∀ e ∈ t.entries, s.admits e.2 := by
  rw [admits, Table.values, List.all_eq_true, List.forall_mem_map]

theorem admits_iff_takes {s : Shape} {v : Value} : s.admits v ↔ s.Takes v := by
  constructor
  · intro h
    induction s using Shape.induction generalizing v with
    | scalar kind =>
      cases kind with
      | mixed => exact .mixed (Value.isScalar_iff.1 h).1 (Value.isScalar_iff.1 h).2
      | string =>
        cases v with
        | string s => exact .string s
        | _ => cases h
      | integer =>
        cases v with
        | int i => exact .integer i
        | _ => cases h
      | float =>
        cases v with
        | float x => exact .float x
        | _ => cases h
      | bool =>
        cases v with
        | bool b => exact .bool b
        | _ => cases h
    | marker t _ =>
      cases v with
      | marker m => exact .marker (by simpa [admits] using h)
      | _ => cases h
    | tableOf s ih =>
      cases v with
      | table t => exact .table fun e mem => ih (admits_tableOf_iff.1 h e mem)
      | _ => cases h
  · intro h
    induction h with
    | string => rfl
    | integer => rfl
    | float => rfl
    | bool => rfl
    | mixed noTable noMarker => exact Value.isScalar_iff.2 ⟨noTable, noMarker⟩
    | table _ ih => exact admits_tableOf_iff.2 ih
    | marker name => simp [admits, name]

end Shape

def MarkerType.Takes (t : MarkerType) (call : String × Value) : Prop :=
  ∃ s, t.shape? call.1 = some s ∧ s.Takes call.2

instance (t : MarkerType) : DecidablePred t.Takes := fun call =>
  match h : t.shape? call.1 with
  | none => .isFalse (by rintro ⟨s, declared, -⟩; rw [h] at declared; cases declared)
  | some s =>
    decidable_of_iff (s.admits call.2) (by simp [MarkerType.Takes, h, Shape.admits_iff_takes])

namespace Marker

variable {m : Marker} {call : String × Value} {calls : List (String × Value)}

theorem set_eq_ok_iff_takes {n : Marker} :
    m.set call.1 call.2 = .ok n ↔
      m.type.Takes call ∧ n = ⟨m.type, Entries.put m.attributes call.1 call.2⟩ := by
  rw [set_eq_ok_iff]
  simp only [MarkerType.Takes, Shape.admits_iff_takes]

theorem set_eq_error_iff {r : Refusal} :
    m.set call.1 call.2 = .error r ↔
      (m.type.shape? call.1 = none ∧ r = .undeclared m.name call.1) ∨
        ∃ s, m.type.shape? call.1 = some s ∧ ¬ s.Takes call.2 ∧
          r = .shape m.name call.1 s call.2 := by
  rw [set, attempt]
  cases m.type.shape? call.1 with
  | none => simp [eq_comm]
  | some s =>
    by_cases admitted : s.admits call.2
    · simp [admitted, Shape.admits_iff_takes.1 admitted]
    · simp [admitted, mt Shape.admits_iff_takes.2 admitted, eq_comm]

def attemptAll (m : Marker) (calls : List (String × Value)) : Marker :=
  calls.foldl (fun m call => (m.attempt call.1 call.2).1) m

theorem attempt_of_takes (h : m.type.Takes call) :
    m.attempt call.1 call.2 = (⟨m.type, Entries.put m.attributes call.1 call.2⟩, none) := by
  obtain ⟨s, declared, takes⟩ := h
  rw [attempt, declared]
  exact if_pos (Shape.admits_iff_takes.2 takes)

theorem attempt_of_not_takes (h : ¬ m.type.Takes call) :
    ∃ r, m.attempt call.1 call.2 = (m, some r) := by
  rw [attempt]
  cases declared : m.type.shape? call.1 with
  | none => exact ⟨_, rfl⟩
  | some s =>
    have refused : ¬ s.admits call.2 := fun admitted =>
      h ⟨s, declared, Shape.admits_iff_takes.1 admitted⟩
    exact ⟨_, if_neg refused⟩

structure Keeps (m : Marker) (t : MarkerType) (calls : List (String × Value)) : Prop where
  type_eq : m.type = t
  distinct : (Entries.keys m.attributes).Nodup
  keys_eq : Entries.keys m.attributes = ((calls.filter t.Takes).map Prod.fst).eraseDups
  get?_eq : ∀ key, m.get? key = (calls.filter t.Takes).reverse.lookup key
  taken : ∀ e ∈ m.attributes, t.Takes e

variable {t : MarkerType}

theorem keeps_fresh (t : MarkerType) : (fresh t).Keeps t [] where
  type_eq := rfl
  distinct := .nil
  keys_eq := rfl
  get?_eq _ := rfl
  taken := nofun

theorem Keeps.attempt (h : m.Keeps t calls) (call : String × Value) :
    (m.attempt call.1 call.2).1.Keeps t (calls ++ [call]) := by
  obtain ⟨rfl, distinct, keys, values, taken⟩ := h
  by_cases takes : m.type.Takes call
  · rw [attempt_of_takes takes]
    have filtered : (calls ++ [call]).filter m.type.Takes = calls.filter m.type.Takes ++ [call] := by
      simp [takes]
    constructor
    case type_eq => rfl
    case distinct => exact Entries.nodup_keys_put call.1 call.2 distinct
    case keys_eq =>
      rw [filtered, List.map_append]
      exact Entries.keys_put_of_eraseDups keys call.1 call.2
    case get?_eq =>
      rw [filtered]
      exact Entries.get?_put_of_lookup values call.1 call.2
    case taken =>
      intro e mem
      rcases Entries.mem_put mem with old | rfl
      · exact taken e old
      · exact takes
  · obtain ⟨r, refused⟩ := attempt_of_not_takes takes
    have filtered : (calls ++ [call]).filter m.type.Takes = calls.filter m.type.Takes := by
      simp [takes]
    rw [refused]
    exact ⟨rfl, distinct, by rw [filtered, keys], by rw [filtered]; exact values, taken⟩

theorem Keeps.attemptAll {done : List (String × Value)} (h : m.Keeps t done)
    (calls : List (String × Value)) : (m.attemptAll calls).Keeps t (done ++ calls) := by
  induction calls generalizing m done with
  | nil => simpa [Marker.attemptAll] using h
  | cons call calls ih =>
    have rest := ih (h.attempt call)
    rwa [List.append_assoc] at rest

theorem Keeps.get?_of_mem (h : m.Keeps t calls) {e : String × Value} (mem : e ∈ m.attributes) :
    m.get? e.1 = some e.2 :=
  Entries.get?_of_mem h.distinct mem

theorem Keeps.get?_eq_none_iff (h : m.Keeps t calls) {key : String} :
    m.get? key = none ↔ ∀ call ∈ calls, call.1 = key → ¬ t.Takes call := by
  rw [h.get?_eq, List.lookup_eq_none_iff]
  simp only [List.mem_reverse, List.mem_filter, decide_eq_true_eq, and_imp, bne_iff_ne]
  constructor
  · rintro other call mem rfl takes
    exact other call mem takes rfl
  · rintro none call mem takes rfl
    exact none call mem rfl takes

theorem setAll_filter_takes (m : Marker) (calls : List (String × Value)) :
    m.setAll (calls.filter m.type.Takes) = .ok (m.attemptAll calls) := by
  induction calls generalizing m with
  | nil => rfl
  | cons call calls ih =>
    have step : m.attemptAll (call :: calls) = (m.attempt call.1 call.2).1.attemptAll calls := rfl
    rw [step]
    by_cases takes : m.type.Takes call
    · rw [List.filter_cons_of_pos (by simpa using takes), attempt_of_takes takes]
      refine (setAll_cons_eq_ok_iff ..).2 ⟨_, set_eq_ok_iff_takes.2 ⟨takes, rfl⟩, ?_⟩
      exact ih ⟨m.type, Entries.put m.attributes call.1 call.2⟩
    · obtain ⟨r, refused⟩ := attempt_of_not_takes takes
      rw [List.filter_cons_of_neg (by simpa using takes), refused]
      exact ih m

end Marker

/-- Whatever calls were made on a fresh marker, it is the ordered map of those that its type takes, and
the same as after these alone. The next call is taken exactly if its attribute is declared and its
value has the shape; a refused one says why and changes nothing. -/
theorem Marker.attemptAll_keeps_taken (t : MarkerType) (calls : List (String × Value)) :
    let m := (fresh t).attemptAll calls
    m.Keeps t calls ∧
    (fresh t).setAll (calls.filter t.Takes) = .ok m ∧
    (∀ e ∈ m.attributes, m.get? e.1 = some e.2) ∧
    (∀ key, m.get? key = none ↔ ∀ call ∈ calls, call.1 = key → ¬ t.Takes call) ∧
    (∀ call, (∃ n, m.set call.1 call.2 = .ok n) ↔ t.Takes call) ∧
    ∀ call r, m.set call.1 call.2 = .error r →
      (fresh t).attemptAll (calls ++ [call]) = m ∧
        ((t.shape? call.1 = none ∧ r = .undeclared t.name call.1) ∨
          ∃ s, t.shape? call.1 = some s ∧ ¬ s.Takes call.2 ∧
            r = .shape t.name call.1 s call.2) := by
  intro m
  have keeps : m.Keeps t calls := (keeps_fresh t).attemptAll calls
  have succeeds : ∀ call, (∃ n, m.set call.1 call.2 = .ok n) ↔ t.Takes call := by
    intro call
    rw [← keeps.type_eq]
    constructor
    · rintro ⟨n, set⟩
      exact (set_eq_ok_iff_takes.1 set).1
    · intro takes
      exact ⟨_, set_eq_ok_iff_takes.2 ⟨takes, rfl⟩⟩
  refine ⟨keeps, setAll_filter_takes (fresh t) calls, fun e => keeps.get?_of_mem,
    fun key => keeps.get?_eq_none_iff, succeeds, ?_⟩
  intro call r refused
  constructor
  · rw [attemptAll, List.foldl_append]
    have untaken : ¬ m.type.Takes call := by
      rw [keeps.type_eq, ← succeeds, refused]
      rintro ⟨n, taken⟩
      cases taken
    obtain ⟨_, unchanged⟩ := attempt_of_not_takes untaken
    exact congrArg Prod.fst unchanged
  · rw [← keeps.type_eq]
    exact set_eq_error_iff.1 refused

theorem Marker.attemptAll_keeps_taken_mixed :
    let inner : MarkerType := ⟨"r", []⟩
    let t : MarkerType := ⟨"p", [("k", .tableOf (.tableOf (.scalar .integer))), ("n", .marker inner)]⟩
    let rows (v : Value) : Value := .table (Table.ofList [.table (Table.ofList [.int 1, v])])
    let calls : List (String × Value) := [("n", .marker (fresh ⟨"r", [("x", .scalar .mixed)]⟩)),
      ("k", rows .null), ("k", rows (.int 2)), ("n", .marker (fresh t)), ("o", .null),
      ("k", rows (.int 3)), ("k", .null)]
    let m := (fresh t).attemptAll calls
    m.Keeps t calls ∧ Entries.keys m.attributes = ["n", "k"] ∧ m.get? "k" = some (rows (.int 3)) ∧
      m.get? "o" = none ∧ (∃ n, m.set "k" (rows (.int 4)) = .ok n) ∧
      (fresh t).attemptAll (calls ++ [("k", rows .null)]) = m := by
  intro inner t rows calls m
  obtain ⟨keeps, -, -, unset, succeeds, refused⟩ := attemptAll_keeps_taken t calls
  have takes : t.Takes ("k", rows (.int 4)) := by decide +kernel
  refine ⟨keeps, by decide +kernel, rfl, (unset "o").2 (by decide +kernel), (succeeds _).2 takes, ?_⟩
  exact (refused ("k", rows .null) _ rfl).1

end DocMarks
