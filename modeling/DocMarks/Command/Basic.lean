import DocMarks.Limits
import DocMarks.Numeral

namespace DocMarks

structure Reading where
  file : String
  schema : String
  pretty : Bool
  limits : Limits
  deriving DecidableEq, Repr

inductive Command where
  | extract (r : Reading)
  | parse (r : Reading)
  | schema (file : String)
  deriving DecidableEq, Repr

namespace Command

inductive Setting where
  | schema
  | maxDepth
  deriving DecidableEq, Repr

structure Draft where
  onlyFiles : Bool := false
  awaiting : Option Setting := none
  file : Option String := none
  schema : Option String := none
  pretty : Bool := false
  maxDepth : Option Nat := none
  deriving DecidableEq, Repr

namespace Draft

def path? (s : String) : Option String := if s = "" then none else some s

def count? (s : String) : Option Nat :=
  let digits := match s.toList with
    | '+' :: cs => cs
    | cs => cs
  (Numeral.natural? digits).filter (· < UInt64.size)

def giveFile (d : Draft) (s : String) : Option Draft := do
  let path ← path? s
  if d.file.isSome then none else some { d with file := some path }

def give (d : Draft) (setting : Setting) (value : String) : Option Draft :=
  let d := { d with awaiting := none }
  match setting with
  | .schema => do
    let path ← path? value
    if d.schema.isSome then none else some { d with schema := some path }
  | .maxDepth => do
    let n ← count? value
    if d.maxDepth.isSome then none else some { d with maxDepth := some n }

def givePretty (d : Draft) : Option Draft :=
  if d.pretty then none else some { d with pretty := true }

def splitValue : List Char → List Char × Option (List Char)
  | [] => ([], none)
  | '=' :: cs => ([], some cs)
  | c :: cs =>
    let (name, value) := splitValue cs
    (c :: name, value)

def long (d : Draft) (cs : List Char) : Option Draft :=
  let (name, value) := splitValue cs
  let setting (s : Setting) : Option Draft :=
    match value with
    | some value => d.give s (String.ofList value)
    | none => some { d with awaiting := some s }
  match String.ofList name, value with
  | "schema", _ => setting .schema
  | "max-depth", _ => setting .maxDepth
  | "pretty", none => d.givePretty
  | _, _ => none

/-- Short options behind one dash. The first that takes a value takes the rest of them, without
an equals sign in front. -/
def short (d : Draft) : List Char → Option Draft
  | [] => some d
  | 'p' :: cs => do
    let d ← d.givePretty
    d.short cs
  | 's' :: [] => some { d with awaiting := some .schema }
  | 's' :: '=' :: cs => d.give .schema (String.ofList cs)
  | 's' :: cs => d.give .schema (String.ofList cs)
  | _ => none

/-- Takes one more argument. A single dash is an ordinary value, two end the options. -/
def take (d : Draft) (arg : String) : Option Draft :=
  if d.onlyFiles then d.giveFile arg
  else
    match arg.toList, d.awaiting with
    | '-' :: _ :: _, some _ => none
    | _, some setting => d.give setting arg
    | ['-', '-'], none => some { d with onlyFiles := true }
    | '-' :: '-' :: cs, none => d.long cs
    | '-' :: c :: cs, none => d.short (c :: cs)
    | _, none => d.giveFile arg

def ofArgs? (args : List String) : Option Draft := do
  let d ← args.foldlM take {}
  if d.awaiting.isSome then none else some d

def reading? (d : Draft) : Option Reading := do
  return ⟨← d.file, ← d.schema, d.pretty, (d.maxDepth.map Limits.mk).getD default⟩

def plain? (d : Draft) : Option String :=
  if d.schema.isSome || d.pretty || d.maxDepth.isSome then none else d.file

end Draft

def ofArgs? : List String → Option Command
  | "extract" :: args => (Draft.ofArgs? args).bind fun d => d.reading?.map .extract
  | "parse" :: args => (Draft.ofArgs? args).bind fun d => d.reading?.map .parse
  | "schema" :: args => (Draft.ofArgs? args).bind fun d => d.plain?.map .schema
  | _ => none

end Command
end DocMarks
