import DocMarks.Literal

namespace DocMarks

inductive ValueFault where
  | mismatch (m : Mismatch)
  | tag (expected found : String)
  | refused (r : Marker.Refusal)

def ValueFault.message : ValueFault → String
  | .mismatch m => m.message
  | .tag expected found => s!"expected `@{expected}`, found `@{found}`"
  | .refused r => r.message

inductive Fault where
  | unexpected (expected found : String)
  | unknownAttribute (marker key : String)
  | badValue (marker key : String) (fault : ValueFault)
  | badLiteral (text : String)
  | tooDeep (limit : Nat)

structure Fault.Located where
  fault : Fault
  span : Span

namespace Fault

def unexpectedToken (expected : String) (t : Token) : Located :=
  ⟨.unexpected expected t.found, t.span⟩

def code : Fault → String
  | .unexpected .. => "E-PARSE-002"
  | .unknownAttribute .. => "E-PARSE-003"
  | .badValue .. => "E-PARSE-004"
  | .badLiteral .. => "E-PARSE-005"
  | .tooDeep .. => "E-PARSE-006"

def label : Fault → String
  | .unexpected expected _ => s!"expected {expected}"
  | .unknownAttribute marker _ => s!"not an attribute of @{marker}"
  | .badValue _ _ fault => fault.message
  | .badLiteral _ => "out of range"
  | .tooDeep limit => s!"nesting limit is {limit}"

def Located.message (l : Located) : String :=
  let place := l.span.render
  match l.fault with
  | .unexpected expected found => s!"syntax error: expected {expected}, found {found} at {place}"
  | .unknownAttribute marker key => s!"unknown attribute `{key}` on `@{marker}` at {place}"
  | .badValue marker key fault =>
    s!"invalid attribute `{key}` on `@{marker}` at {place}: {fault.message}"
  | .badLiteral text => s!"invalid literal {text} at {place}"
  | .tooDeep limit => s!"annotation nested deeper than {limit} levels at {place}"

def Located.shift (l : Located) (n : Nat) : Located := { l with span := l.span.shift n }

end Fault

/-- Why a comment could not be read. A fault comes with the comment that it was found in. -/
inductive ReadError where
  | emptyVocabulary
  | fault (l : Fault.Located) (body : String)

namespace ReadError

def message : ReadError → String
  | .emptyVocabulary => "no node types are registered"
  | .fault l _ => l.message

def code : ReadError → String
  | .emptyVocabulary => "E-PARSE-001"
  | .fault l _ => l.fault.code

def span? : ReadError → Option Span
  | .emptyVocabulary => none
  | .fault l _ => some l.span

def body? : ReadError → Option String
  | .emptyVocabulary => none
  | .fault _ body => some body

end ReadError
end DocMarks
