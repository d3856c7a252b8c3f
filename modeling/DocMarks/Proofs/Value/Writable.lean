import DocMarks.Proofs.Conformance
import DocMarks.Proofs.Text.Quoted
import DocMarks.Proofs.Value.Built
import DocMarks.Value.Render

namespace DocMarks

mutual

def Value.depth : Value → Nat
  | .table t => t.depth
  | .marker m => m.depth
  | _ => 0
termination_by structural v => v

def Table.depth : Table → Nat
  | ⟨entries, _⟩ => Value.depthOfEntries entries + 1
termination_by structural t => t

def Marker.depth : Marker → Nat
  | ⟨_, attributes⟩ => Value.depthOfAttributes attributes + 1
termination_by structural m => m

def Value.depthOfEntries : List (Key × Value) → Nat
  | [] => 0
  | (_, v) :: rest => max v.depth (Value.depthOfEntries rest)
termination_by structural es => es

def Value.depthOfAttributes : List (String × Value) → Nat
  | [] => 0
  | (_, v) :: rest => max v.depth (Value.depthOfAttributes rest)
termination_by structural es => es

end

theorem Table.depth_le_succ_iff {t : Table} {n : Nat} :
    t.depth ≤ n + 1 ↔ ∀ e ∈ t.entries, e.2.depth ≤ n := by
  cases t
  exact Nat.succ_le_succ_iff.trans (le_iff_of_max rfl fun _ _ => rfl)

theorem Marker.depth_le_succ_iff {m : Marker} {n : Nat} :
    m.depth ≤ n + 1 ↔ ∀ e ∈ m.attributes, e.2.depth ≤ n := by
  cases m
  exact Nat.succ_le_succ_iff.trans (le_iff_of_max rfl fun _ _ => rfl)

theorem Table.exists_of_depth_le {t : Table} {n : Nat} (h : t.depth ≤ n) :
    ∃ k, n = k + 1 ∧ ∀ e ∈ t.entries, e.2.depth ≤ k := by
  cases n with
  | zero =>
    cases t
    exact absurd h (Nat.not_succ_le_zero _)
  | succ k => exact ⟨k, rfl, depth_le_succ_iff.1 h⟩

theorem Marker.exists_of_depth_le {m : Marker} {n : Nat} (h : m.depth ≤ n) :
    ∃ k, n = k + 1 ∧ ∀ e ∈ m.attributes, e.2.depth ≤ k := by
  cases n with
  | zero =>
    cases m
    exact absurd h (Nat.not_succ_le_zero _)
  | succ k => exact ⟨k, rfl, depth_le_succ_iff.1 h⟩

def Key.Writable : Key → Prop
  | .int _ => True
  | .string s => Text.Quoted.Plain s.toList

/-- No float occurs, texts have no margins inside, tables and markers are built by writing to them,
and the names of types and attributes are names. -/
inductive Value.Writable : Value → Prop
  | null : Value.Writable .null
  | bool (b : Bool) : Value.Writable (.bool b)
  | int (i : Int64) : Value.Writable (.int i)
  | string {s : String} : Text.Quoted.Plain s.toList → Value.Writable (.string s)
  | table {t : Table} : t.Built → (∀ e ∈ t.entries, e.1.Writable) →
      (∀ e ∈ t.entries, Value.Writable e.2) → Value.Writable (.table t)
  | marker {m : Marker} : m.Built → Token.Kind.name.Lexes m.type.name →
      (∀ e ∈ m.attributes, Token.Kind.name.Lexes e.1) →
      (∀ e ∈ m.attributes, Value.Writable e.2) → Value.Writable (.marker m)

end DocMarks
