import DocMarks.Value.Equality
import DocMarks.Value.Render

namespace DocMarks

inductive Finding where
  | once (m : Marker)
  | repeated (ms : List Marker)

namespace Finding

def markers : Finding → List Marker
  | .once m => [m]
  | .repeated ms => ms

def once? : Finding → Option Marker
  | .once m => some m
  | .repeated _ => none

def isRepeated : Finding → Bool
  | .once _ => false
  | .repeated _ => true

def add (f : Finding) (m : Marker) : Finding := .repeated (f.markers ++ [m])

def toJson : Finding → Json
  | .once m => m.toJson
  | .repeated ms => .list (ms.map Marker.toJson)

def equal : Finding → Finding → Bool
  | .once m, .once n => m.equal n
  | .repeated ms, .repeated ns => ms.length == ns.length && (ms.zip ns).all fun (m, n) => m.equal n
  | _, _ => false

end Finding

structure Findings where
  entries : List (String × Finding)

namespace Findings

def empty : Findings := ⟨[]⟩

instance : EmptyCollection Findings := ⟨empty⟩

def get? (f : Findings) (name : String) : Option Finding := Entries.get? f.entries name

def insert (f : Findings) (m : Marker) : Findings :=
  match f.get? m.name with
  | none => ⟨Entries.put f.entries m.name (.once m)⟩
  | some finding => ⟨Entries.put f.entries m.name (finding.add m)⟩

def ofMarkers (ms : List Marker) : Findings := ms.foldl insert {}

def contains (f : Findings) (name : String) : Bool := Entries.contains f.entries name

def size (f : Findings) : Nat := f.entries.length

def isEmpty (f : Findings) : Bool := f.entries.isEmpty

def names (f : Findings) : List String := Entries.keys f.entries

structure Missing where
  name : String
  deriving DecidableEq, Repr

def Missing.message (m : Missing) : String := s!"no annotation named `{m.name}`"

def require (f : Findings) (name : String) : Except Missing Finding :=
  match f.get? name with
  | some finding => .ok finding
  | none => .error ⟨name⟩

def toJson (f : Findings) : Json :=
  .object (f.entries.map fun (name, finding) => (name, finding.toJson))

def equal (f g : Findings) : Bool :=
  f.size == g.size && f.entries.all fun (name, finding) =>
    match g.get? name with
    | some other => finding.equal other
    | none => false

end Findings
end DocMarks
