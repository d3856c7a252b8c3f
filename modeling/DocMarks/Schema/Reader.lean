import DocMarks.Json.Decode
import DocMarks.Schema.Basic

namespace DocMarks

mutual

def Schema.ShapeExpr.ofJson? : Json.Raw → Option Schema.ShapeExpr
  | .string us => (Json.Raw.chars? us).map .name
  | .list items => (Schema.ShapeExpr.listOfJson? items).map .list
  | _ => none
termination_by structural j => j

def Schema.ShapeExpr.listOfJson? : List Json.Raw → Option (List Schema.ShapeExpr)
  | [] => some []
  | j :: rest => do
    let e ← Schema.ShapeExpr.ofJson? j
    let es ← Schema.ShapeExpr.listOfJson? rest
    return e :: es
termination_by structural items => items

end

namespace Schema

/-- An attribute that is given twice keeps its first place and its last shape. -/
def attributesOfJson? (j : Json.Raw) : Option (List (String × ShapeExpr)) := do
  let members ← j.object?
  let attributes ← members.mapM fun (k, j) => (ShapeExpr.ofJson? j).map (k, ·)
  return Entries.ofList attributes

def TypeDecl.ofJson? (j : Json.Raw) : Option TypeDecl := do
  let fields ← j.record? ["name", "attributes"] .refused
  let name ← (Entries.get? fields "name").bind Json.Raw.text?
  let attributes ← match Entries.get? fields "attributes" with
    | none => some []
    | some j => attributesOfJson? j
  return ⟨name, attributes⟩

def registeredOfJson? (j : Json.Raw) : Option (Option (List String)) :=
  if j.isNull then some none
  else do
    let items ← j.list?
    let names ← items.mapM Json.Raw.text?
    return some names

def ofJson? (j : Json.Raw) : Option Schema := do
  if 127 < j.depth then none
  let fields ← j.record? ["types", "register"] .refused
  let items ← (Entries.get? fields "types").bind Json.Raw.list?
  let types ← items.mapM TypeDecl.ofJson?
  let registered ← match Entries.get? fields "register" with
    | none => some none
    | some j => registeredOfJson? j
  return ⟨types, registered⟩

def ofText? (text : String) : Option Schema := (Json.Raw.ofText? text).bind ofJson?

def load (text : String) (limits : Limits) : Except Fault Dialect :=
  match ofText? text with
  | none => .error .malformed
  | some s => s.dialect limits

end Schema

end DocMarks
