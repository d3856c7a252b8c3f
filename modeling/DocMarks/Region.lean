import DocMarks.Span
import DocMarks.Text.Basic
import DocMarks.Text.Blank

/-!
The part of a comment that may hold markers: from the first at-sign that opens a word to the end,
without the trailing decoration.
-/

namespace DocMarks

structure Region where
  start : Nat
  text : List Char
  deriving DecidableEq, Repr

namespace Region

/-- An at-sign opens a region at the start of the comment and after these characters. A line break
is not one of them. -/
def opens (c : Char) : Bool := c == ' ' || c == '\t' || c == '*'

def isDecoration (c : Char) : Bool := c == '*' || c == '/' || Text.isBlank c

def openFrom? (position : Nat) (opened : Bool) : List Char → Option Region
  | [] => none
  | c :: cs =>
    if c == '@' && opened then some ⟨position, c :: cs⟩
    else openFrom? (position + c.utf8Size) (opens c) cs

def ofChars? (cs : List Char) : Option Region :=
  (openFrom? 0 true cs).map fun r => ⟨r.start, Text.trimEnd isDecoration r.text⟩

def ofBody? (body : String) : Option Region := ofChars? body.toList

def span (r : Region) : Span := ⟨r.start, r.start + Text.width r.text⟩

end Region
end DocMarks
