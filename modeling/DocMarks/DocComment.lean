import DocMarks.Span
import DocMarks.Text.Basic

/-!
The doc comments of a source: from a slash and two stars to the next star and slash. A comment
whose second star closes it is empty and no doc comment; one that is never closed ends the search.
-/

namespace DocMarks

structure DocComment where
  text : String
  span : Span
  /-- The line of the opening, counted from one. -/
  line : Nat
  deriving DecidableEq, Repr

namespace DocComment

def closing? : List Char → Option (List Char)
  | [] => none
  | '*' :: '/' :: _ => some ['*', '/']
  | c :: cs => (closing? cs).map (c :: ·)

inductive Start where
  | other
  | emptyComment
  | unclosed
  | comment (text : List Char)

def startOf : List Char → Start
  | '/' :: '*' :: '*' :: '/' :: _ => .emptyComment
  | '/' :: '*' :: '*' :: cs =>
    match closing? cs with
    | none => .unclosed
    | some rest => .comment ('/' :: '*' :: '*' :: rest)
  | _ => .other

def lineAfter (line : Nat) (c : Char) : Nat := if c = '\n' then line + 1 else line

/-- The doc comments from a position on, after `skip` characters of a comment that was found
already. -/
def findFrom (skip position line : Nat) : List Char → List DocComment
  | [] => []
  | c :: cs =>
    let next := position + c.utf8Size
    match skip with
    | skip + 1 => findFrom skip next (lineAfter line c) cs
    | 0 =>
      match startOf (c :: cs) with
      | .other => findFrom 0 next (lineAfter line c) cs
      | .emptyComment => findFrom 3 next (lineAfter line c) cs
      | .unclosed => []
      | .comment text =>
        ⟨String.ofList text, ⟨position, position + Text.width text⟩, line⟩
          :: findFrom (text.length - 1) next (lineAfter line c) cs

theorem findFrom_skip (skip position line : Nat) (cs : List Char) :
    findFrom skip position line cs =
      findFrom 0 (position + Text.width (cs.take skip)) ((cs.take skip).foldl lineAfter line)
        (cs.drop skip) := by
  induction cs generalizing skip position line with
  | nil => cases skip <;> simp [findFrom]
  | cons c cs ih =>
    cases skip with
    | zero => simp
    | succ skip => simp [findFrom, ih skip, Nat.add_assoc]

def findAll (source : String) : List DocComment := findFrom 0 0 1 source.toList

end DocComment
end DocMarks
