import DocMarks.Entries
import DocMarks.Json.Basic

/-!
The shapes that attribute values are declared with. The types of nested markers stand inside the
shapes, so a shape is a finite tree and everything on shapes is by recursion on them.
-/

namespace DocMarks

inductive ScalarKind where
  | string
  | integer
  | float
  | bool
  | mixed
  deriving DecidableEq, Repr

namespace ScalarKind

def all : List ScalarKind := [.string, .integer, .float, .bool, .mixed]

def name : ScalarKind → String
  | .string => "string"
  | .integer => "integer"
  | .float => "float"
  | .bool => "bool"
  | .mixed => "mixed"

def ofName? : String → Option ScalarKind
  | "string" => some .string
  | "integer" => some .integer
  | "int" => some .integer
  | "float" => some .float
  | "bool" => some .bool
  | "boolean" => some .bool
  | "mixed" => some .mixed
  | _ => none

@[simp] theorem ofName?_name (k : ScalarKind) : ofName? k.name = some k := by
  cases k <;> rfl

end ScalarKind

mutual

inductive Shape where
  | scalar (kind : ScalarKind)
  | marker (type : MarkerType)
  | tableOf (item : Shape)

structure MarkerType where
  name : String
  attributes : List (String × Shape)

end

instance : Inhabited MarkerType := ⟨"", []⟩

/-- Induction on shapes: a marker's shape is reached from the shapes of its attributes. -/
theorem Shape.induction {motive : Shape → Prop} (scalar : ∀ k, motive (.scalar k))
    (marker : ∀ t : MarkerType, (∀ a ∈ t.attributes, motive a.2) → motive (.marker t))
    (tableOf : ∀ s, motive s → motive (.tableOf s)) (s : Shape) : motive s :=
  @Shape.rec motive (fun t => ∀ a ∈ t.attributes, motive a.2) (fun as => ∀ a ∈ as, motive a.2)
    (fun a => motive a.2) scalar marker tableOf (fun _ _ h => h)
    (by simp) (fun _ _ h hs => List.forall_mem_cons.2 ⟨h, hs⟩) (fun _ _ h => h) s

namespace MarkerType

def declare (name : String) (attributes : List (String × Shape)) : MarkerType :=
  ⟨name, Entries.ofList attributes⟩

def shape? (t : MarkerType) (key : String) : Option Shape := Entries.get? t.attributes key

end MarkerType

namespace Shape

def describe : Shape → String
  | .scalar k => k.name
  | .marker t => "@" ++ t.name
  | .tableOf s => "[" ++ s.describe ++ "]"

def toJson : Shape → Json
  | .scalar k => .string k.name
  | .marker t => .string t.name
  | .tableOf s => .list [s.toJson]

end Shape

namespace MarkerType

def toJson (t : MarkerType) : Json :=
  .object [("name", .string t.name),
    ("schema", .object (t.attributes.map fun (k, s) => (k, s.toJson)))]

def describeAttributes (t : MarkerType) : List String :=
  t.attributes.map fun (k, s) => k ++ ": " ++ s.describe

def describe (t : MarkerType) : String :=
  "@" ++ t.name ++ "(" ++ String.intercalate ", " t.describeAttributes ++ ")"

end MarkerType

mutual

/-- Equality of shapes; the order in which a type declares its attributes does not count. -/
def Shape.equal : Shape → Shape → Bool
  | .scalar k, .scalar l => k == l
  | .marker s, .marker t => s.equal t
  | .tableOf s, .tableOf t => s.equal t
  | _, _ => false
termination_by structural s => s

def MarkerType.equal : MarkerType → MarkerType → Bool
  | ⟨name, attributes⟩, t =>
    name == t.name && attributes.length == t.attributes.length
      && Shape.equalWithin attributes t.attributes
termination_by structural s => s

def Shape.equalWithin : List (String × Shape) → List (String × Shape) → Bool
  | [], _ => true
  | (k, s) :: rest, others =>
    (match Entries.get? others k with
      | some t => s.equal t
      | none => false)
    && Shape.equalWithin rest others
termination_by structural s => s

end

end DocMarks
