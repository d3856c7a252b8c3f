import DocMarks.Declaration
import DocMarks.Json.Decode

namespace DocMarks

namespace Span

def toJson (s : Span) : Json := .object [("start", .integer s.start), ("end", .integer s.stop)]

def ofJson? (j : Json.Raw) : Option Span := do
  let fields ← j.record? ["start", "end"] .skipped
  let start ← (Entries.get? fields "start").bind Json.Raw.natural?
  let stop ← (Entries.get? fields "end").bind Json.Raw.natural?
  return ⟨start, stop⟩

end Span

namespace Limits

def toJson (l : Limits) : Json := .object [("max_depth", .integer l.maxDepth)]

def ofJson? (j : Json.Raw) : Option Limits := do
  let fields ← j.record? ["max_depth"] .skipped
  match Entries.get? fields "max_depth" with
  | none => some default
  | some j => (j.natural?).map fun n => ⟨n⟩

end Limits

namespace ScalarKind

def toJson (k : ScalarKind) : Json := .string k.name

def ofJson? (j : Json.Raw) : Option ScalarKind := do
  let name ← j.choice?
  all.find? fun k => k.name == name

end ScalarKind

namespace Declaration.Kind

def toJson (k : Kind) : Json := .string k.name

def ofJson? (j : Json.Raw) : Option Kind := j.choice?.bind ofName?

end Declaration.Kind

end DocMarks
