import DocMarks.Findings
import DocMarks.Limits
import DocMarks.Region
import DocMarks.Rule
import DocMarks.Token.Lexer
import DocMarks.Vocabulary

/-!
Reading the markers of a comment. An at-sign that is glued to the text before it, one without a
name and one with a name that is not registered are text like everything around them.
-/

namespace DocMarks

structure Dialect where
  vocabulary : Vocabulary
  limits : Limits

namespace Rule

def marker? (v : Vocabulary) : Rule (Option Marker) := fun a c => do
  let c := c.step
  match c.current.name? with
  | none => return (none, c)
  | some name =>
    let c := c.step
    match v.lookup? name with
    | none => return (none, c)
    | some t =>
      if c.current.kind = .parenOpen then
        let (m, c) ← nested (attributes t.rule? (.fresh t)) a c
        return (some m, c)
      else return (some (.fresh t), c)

def markers (v : Vocabulary) (a : Allowance) : Nat → Cursor → Except Fault.Located (List Marker)
  | 0, _ => .ok []
  | steps + 1, c =>
    if c.isFinished then .ok []
    else if c.current.kind != .atSign || c.isGlued then markers v a steps c.step
    else do
      let (m?, c) ← marker? v a c
      let ms ← markers v a steps c
      return m?.toList ++ ms

end Rule

namespace Dialect

def empty (limits : Limits) : Dialect := ⟨{}, limits⟩

def register (d : Dialect) (t : MarkerType) : Except Vocabulary.Duplicate Dialect :=
  (d.vocabulary.register t).map fun v => { d with vocabulary := v }

def registerAll (d : Dialect) (ts : List MarkerType) : Except Vocabulary.Duplicate Dialect :=
  (d.vocabulary.registerAll ts).map fun v => { d with vocabulary := v }

def allowance (d : Dialect) : Allowance := ⟨d.limits.maxDepth, d.limits.maxDepth⟩

def markersOf (d : Dialect) (ts : List Token) : Except Fault.Located (List Marker) :=
  let c := Cursor.ofTokens ts
  Rule.markers d.vocabulary d.allowance (c.remaining + 1) c

def markers (d : Dialect) (body : String) : Except ReadError (List Marker) :=
  if d.vocabulary.isEmpty then .error .emptyVocabulary
  else
    match Region.ofBody? body with
    | none => .ok []
    | some r => (d.markersOf (Token.scan r.start r.text)).mapError fun l => .fault l body

def read (d : Dialect) (body : String) : Except ReadError Findings :=
  (d.markers body).map Findings.ofMarkers

end Dialect
end DocMarks
