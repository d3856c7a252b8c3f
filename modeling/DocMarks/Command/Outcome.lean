import DocMarks.Command.Basic
import DocMarks.DocComment
import DocMarks.Schema.Reader

namespace DocMarks

inductive FileError where
  | missing
  | notText
  deriving DecidableEq, Repr

def FileError.message : FileError → String
  | .missing => "No such file or directory (os error 2)"
  | .notText => "stream did not contain valid UTF-8"

abbrev Files := String → Except FileError String

def textOfBytes (bytes : ByteArray) : Except FileError String :=
  match String.fromUTF8? bytes with
  | some text => .ok text
  | none => .error .notText

inductive LoadError where
  | schemaFile (path : String) (e : FileError)
  | schema (f : Schema.Fault)
  | file (e : FileError)
  deriving DecidableEq, Repr

def LoadError.message : LoadError → String
  | .schemaFile path e => s!"Error loading schema: cannot read schema {path}: {e.message}"
  | .schema f => "Error loading schema: " ++ f.message
  | .file e => "Error reading file: " ++ e.message

structure Report where
  code : String
  message : String
  place : String
  label : String
  deriving DecidableEq, Repr

structure Outcome where
  status : Nat
  output : String
  messages : List String
  reports : List Report
  deriving DecidableEq, Repr

def advance (bytes line column : Nat) : List Char → Nat × Nat
  | [] => (line, column)
  | c :: cs =>
    if bytes = 0 then (line, column)
    else if c = '\n' then advance (bytes - c.utf8Size) (line + 1) 1 cs
    else advance (bytes - c.utf8Size) line (column + 1) cs

def lineColumn (source : String) (position : Nat) : Nat × Nat := advance position 1 1 source.toList

structure Extraction where
  line : Nat
  offset : Nat
  findings : Findings

namespace Extraction

def toJson (e : Extraction) : Json :=
  .object [("line", .integer e.line), ("offset", .integer e.offset),
    ("annotations", e.findings.toJson)]

def ofComment? (d : Dialect) (c : DocComment) : Option Extraction :=
  match d.read c.text with
  | .ok findings => if findings.isEmpty then none else some ⟨c.line, c.span.start, findings⟩
  | .error _ => none

def errorOf? (d : Dialect) (c : DocComment) : Option (Nat × ReadError) :=
  match d.read c.text with
  | .ok _ => none
  | .error e => some (c.span.start, e)

end Extraction

namespace Outcome

def success (output : String) : Outcome := ⟨0, output, [], []⟩

def failure (e : LoadError) : Outcome := ⟨1, "", [e.message], []⟩

def report (file source : String) (o : Outcome) (base : Nat) : ReadError → Outcome
  | .emptyVocabulary =>
    { o with messages := o.messages ++ [file ++ ": " ++ ReadError.emptyVocabulary.message] }
  | .fault l _ =>
    let (line, column) := lineColumn source (l.span.start + base)
    let place := s!"{file}:{line}:{column}"
    { o with reports := o.reports ++ [⟨l.fault.code, l.message, place, l.fault.label⟩] }

end Outcome

namespace Command

def spell (pretty : Bool) (j : Json) : String :=
  (if pretty then j.pretty 0 else j.compact) ++ "\n"

def loadDialect (files : Files) (path : String) (limits : Limits) : Except LoadError Dialect := do
  let text ← (files path).mapError (.schemaFile path)
  (Schema.load text limits).mapError .schema

def load (files : Files) (r : Reading) : Except LoadError (Dialect × String) := do
  let d ← loadDialect files r.schema r.limits
  let text ← (files r.file).mapError .file
  return (d, text)

/-- Comments that cannot be read are reported and left out; the others are printed. -/
def extractFrom (d : Dialect) (r : Reading) (source : String) : Outcome :=
  let comments := DocComment.findAll source
  let extractions := comments.filterMap (Extraction.ofComment? d)
  let errors := comments.filterMap (Extraction.errorOf? d)
  let output := spell r.pretty (.list (extractions.map Extraction.toJson))
  errors.foldl (fun o (base, e) => o.report r.file source base e)
    ⟨if errors.isEmpty then 0 else 1, output, [], []⟩

def parseFrom (d : Dialect) (r : Reading) (body : String) : Outcome :=
  match d.read body with
  | .ok findings => .success (spell r.pretty findings.toJson)
  | .error e => Outcome.report r.file body ⟨1, "", [], []⟩ 0 e

def listSchema (d : Dialect) : Outcome :=
  .success (String.join (d.vocabulary.types.map fun t => t.describe ++ "\n"))

def run (files : Files) : Command → Outcome
  | .extract r =>
    match load files r with
    | .ok (d, source) => extractFrom d r source
    | .error e => .failure e
  | .parse r =>
    match load files r with
    | .ok (d, body) => parseFrom d r body
    | .error e => .failure e
  | .schema file =>
    match loadDialect files file default with
    | .ok d => listSchema d
    | .error e => .failure e

def paths : Command → List String
  | .extract r => [r.schema, r.file]
  | .parse r => [r.schema, r.file]
  | .schema file => [file]

end Command
end DocMarks
