import DocMarks.Dialect

/-!
Schemas: declarations of marker types that refer to each other by name, and the list of those that
are markers of their own. A type can refer only to types before it, so no type contains itself.
-/

namespace DocMarks.Schema

inductive ShapeExpr where
  | name (n : String)
  | list (items : List ShapeExpr)

structure TypeDecl where
  name : String
  attributes : List (String × ShapeExpr)

end DocMarks.Schema

namespace DocMarks

/-- Without a list of registered names all types are registered. -/
structure Schema where
  types : List Schema.TypeDecl
  registered : Option (List String)

end DocMarks

namespace DocMarks.Schema

inductive Fault where
  | malformed
  | unknownType (marker key name : String)
  | arity (marker key : String) (found : Nat)
  | unregistrable (name : String)
  | duplicate (d : Vocabulary.Duplicate)
  deriving DecidableEq, Repr

def Fault.message : Fault → String
  | .malformed => "malformed schema"
  | .unknownType marker key name =>
    s!"attribute `{key}` of `{marker}` refers to unknown type `{name}`"
  | .arity marker key found =>
    s!"attribute `{key}` of `{marker}`: an array descriptor wraps exactly one descriptor, " ++
      s!"found {found}"
  | .unregistrable name => s!"cannot register `{name}`: no such type in the schema"
  | .duplicate d => d.message

/-- The shape that is meant, given the types so far. The names of scalars come first. -/
def ShapeExpr.resolve (known : Vocabulary) (marker key : String) : ShapeExpr → Except Fault Shape
  | .name n =>
    match ScalarKind.ofName? n with
    | some kind => .ok (.scalar kind)
    | none =>
      match known.lookup? n with
      | some t => .ok (.marker t)
      | none => .error (.unknownType marker key n)
  | .list [e] => (e.resolve known marker key).map .tableOf
  | .list es => .error (.arity marker key es.length)

def resolveAttributes (known : Vocabulary) (marker : String) :
    List (String × ShapeExpr) → Except Fault (List (String × Shape))
  | [] => .ok []
  | (key, e) :: rest => do
    let s ← e.resolve known marker key
    let shapes ← resolveAttributes known marker rest
    return (key, s) :: shapes

def TypeDecl.declare (known : Vocabulary) (d : TypeDecl) : Except Fault Vocabulary := do
  if known.contains d.name then throw (.duplicate ⟨d.name⟩)
  let attributes ← resolveAttributes known d.name d.attributes
  (known.register (.declare d.name attributes)).mapError .duplicate

def declareAll (known : Vocabulary) : List TypeDecl → Except Fault Vocabulary
  | [] => .ok known
  | d :: ds => do
    let known ← d.declare known
    declareAll known ds

def registerNames (known : Vocabulary) (v : Vocabulary) : List String → Except Fault Vocabulary
  | [] => .ok v
  | name :: names =>
    match known.lookup? name with
    | none => .error (.unregistrable name)
    | some t => do
      let v ← (v.register t).mapError .duplicate
      registerNames known v names

def vocabulary (s : Schema) : Except Fault Vocabulary := do
  let known ← declareAll {} s.types
  match s.registered with
  | none => return known
  | some names => registerNames known {} names

def dialect (s : Schema) (limits : Limits) : Except Fault Dialect :=
  s.vocabulary.map fun v => ⟨v, limits⟩

end DocMarks.Schema
