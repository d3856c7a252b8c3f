import DocMarks.Shape

namespace DocMarks

inductive Key where
  | int (i : Int64)
  | string (s : String)
  deriving DecidableEq, Repr

mutual

inductive Value where
  | null
  | bool (b : Bool)
  | int (i : Int64)
  | float (x : Binary64)
  | string (s : String)
  | table (t : Table)
  | marker (m : Marker)

structure Table where
  entries : List (Key × Value)
  nextIndex : Int64

structure Marker where
  type : MarkerType
  attributes : List (String × Value)

end

/-- Induction on values: a table is reached from its entries, a marker from its attributes. -/
theorem Value.induction {motive : Value → Prop} (null : motive .null)
    (bool : ∀ b, motive (.bool b)) (int : ∀ i, motive (.int i)) (float : ∀ x, motive (.float x))
    (string : ∀ s, motive (.string s))
    (table : ∀ t : Table, (∀ e ∈ t.entries, motive e.2) → motive (.table t))
    (marker : ∀ m : Marker, (∀ a ∈ m.attributes, motive a.2) → motive (.marker m)) (v : Value) :
    motive v :=
  @Value.rec motive (fun t => ∀ e ∈ t.entries, motive e.2) (fun m => ∀ a ∈ m.attributes, motive a.2)
    (fun es => ∀ e ∈ es, motive e.2) (fun as => ∀ a ∈ as, motive a.2)
    (fun e => motive e.2) (fun a => motive a.2)
    null bool int float string table marker (fun _ _ h => h) (fun _ _ h => h)
    (by simp) (fun _ _ h hs => List.forall_mem_cons.2 ⟨h, hs⟩)
    (by simp) (fun _ _ h hs => List.forall_mem_cons.2 ⟨h, hs⟩)
    (fun _ _ h => h) (fun _ _ h => h) v

namespace Value

def kindName : Value → String
  | .null => "null"
  | .bool _ => "bool"
  | .int _ => "integer"
  | .float _ => "float"
  | .string _ => "string"
  | .table _ => "array"
  | .marker _ => "node"

def isScalar : Value → Bool
  | .table _ => false
  | .marker _ => false
  | _ => true

def isNull : Value → Bool
  | .null => true
  | _ => false

def string? : Value → Option String
  | .string s => some s
  | _ => none

def int? : Value → Option Int64
  | .int i => some i
  | _ => none

def float? : Value → Option Binary64
  | .float x => some x
  | _ => none

def bool? : Value → Option Bool
  | .bool b => some b
  | _ => none

def table? : Value → Option Table
  | .table t => some t
  | _ => none

def marker? : Value → Option Marker
  | .marker m => some m
  | _ => none

end Value

namespace Table

def empty : Table := ⟨[], 0⟩

instance : EmptyCollection Table := ⟨empty⟩

def after (i : Int64) : Int64 := if i = Int64.maxValue then i else i + 1

/-- Writes an entry under a key. An integer key moves the next index past itself, never back. -/
def insert (t : Table) (k : Key) (v : Value) : Table where
  entries := Entries.put t.entries k v
  nextIndex :=
    match k with
    | .int i => max t.nextIndex (after i)
    | .string _ => t.nextIndex

def nextKey (t : Table) : Key := .int t.nextIndex

def push (t : Table) (v : Value) : Table := t.insert t.nextKey v

def ofList (vs : List Value) : Table := vs.foldl push {}

def ofEntries (es : List (Key × Value)) : Table := es.foldl (fun t e => t.insert e.1 e.2) {}

def get? (t : Table) (k : Key) : Option Value := Entries.get? t.entries k

def size (t : Table) : Nat := t.entries.length

def keys (t : Table) : List Key := Entries.keys t.entries

def values (t : Table) : List Value := t.entries.map Prod.snd

def countsFrom (n : Nat) : List Key → Bool
  | [] => true
  | .int i :: ks => i.toInt == n && countsFrom (n + 1) ks
  | .string _ :: _ => false

def isList (t : Table) : Bool := countsFrom 0 t.keys

theorem get?_insert (t : Table) (k k' : Key) (v : Value) :
    (t.insert k v).get? k' = if k = k' then some v else t.get? k' :=
  Entries.get?_put t.entries k k' v

theorem keys_insert (t : Table) (k : Key) (v : Value) :
    (t.insert k v).keys = if k ∈ t.keys then t.keys else t.keys ++ [k] :=
  Entries.keys_put t.entries k v

end Table

/-- Whether a value has the declared shape. Of a nested marker only the name of its type is
compared. -/
def Shape.admits : Shape → Value → Bool
  | .scalar .mixed, v => v.isScalar
  | .scalar .string, .string _ => true
  | .scalar .integer, .int _ => true
  | .scalar .float, .float _ => true
  | .scalar .bool, .bool _ => true
  | .marker t, .marker m => m.type.name == t.name
  | .tableOf s, .table t => t.values.all s.admits
  | _, _ => false

namespace Marker

def fresh (t : MarkerType) : Marker := ⟨t, []⟩

def name (m : Marker) : String := m.type.name

def get? (m : Marker) (key : String) : Option Value := Entries.get? m.attributes key

inductive Refusal where
  | undeclared (marker key : String)
  | shape (marker key : String) (expected : Shape) (found : Value)

def Refusal.message : Refusal → String
  | .undeclared marker key => s!"node `{marker}` has no attribute `{key}`"
  | .shape marker key expected found =>
    s!"attribute `{key}` of node `{marker}` expects {expected.describe}, got {found.kindName}"

/-- Sets a declared attribute to a value of its shape. The marker comes back with the answer, whether or
not the call is refused. -/
def attempt (m : Marker) (key : String) (v : Value) : Marker × Option Refusal :=
  match m.type.shape? key with
  | none => (m, some (.undeclared m.name key))
  | some shape =>
    if shape.admits v then (⟨m.type, Entries.put m.attributes key v⟩, none)
    else (m, some (.shape m.name key shape v))

def set (m : Marker) (key : String) (v : Value) : Except Refusal Marker :=
  match m.attempt key v with
  | (n, none) => .ok n
  | (_, some r) => .error r

theorem set_eq_ok_iff (m n : Marker) (key : String) (v : Value) :
    m.set key v = .ok n ↔
      (∃ shape, m.type.shape? key = some shape ∧ shape.admits v) ∧
        n = ⟨m.type, Entries.put m.attributes key v⟩ := by
  rw [set, attempt]
  cases m.type.shape? key with
  | none => simp
  | some shape =>
    by_cases h : shape.admits v
    · simp only [h, if_true, Except.ok.injEq, Option.some.injEq, exists_eq_left', true_and]
      exact eq_comm
    · simp [h]

end Marker
end DocMarks
