import DocMarks.Text.Basic
import DocMarks.Token.Basic

/-!
Cutting a text into tokens. Blanks and stars between tokens are left out; everywhere else the
longest lexeme is taken, and a character that starts none is a stray token.
-/

namespace DocMarks.Token

def isGap (c : Char) : Bool :=
  c == ' ' || c == '\t' || c == '\r' || c == '\n' || c == '\x0c' || c == '*'

def isNameStart (c : Char) : Bool := c.isAlpha || c == '_' || c == '\\'

def isNameRest (c : Char) : Bool := isNameStart c || c.isDigit

def closing? : List Char → Option (List Char)
  | [] => none
  | '"' :: '"' :: cs => (closing? cs).map fun ds => '"' :: '"' :: ds
  | '"' :: _ => some ['"']
  | c :: cs => (closing? cs).map (c :: ·)

def signOf : List Char → List Char
  | c :: _ => if c = '+' ∨ c = '-' then [c] else []
  | [] => []

def digitsOf (cs : List Char) : List Char := cs.takeWhile Char.isDigit

def fractionOf : List Char → List Char
  | '.' :: cs => if digitsOf cs = [] then [] else '.' :: digitsOf cs
  | _ => []

def exponentOf : List Char → List Char
  | c :: cs =>
    let digits := digitsOf (cs.drop (signOf cs).length)
    if (c = 'e' ∨ c = 'E') ∧ digits ≠ [] then c :: (signOf cs ++ digits) else []
  | [] => []

/-- The longest number at the front. One that starts with its point has no exponent. -/
def number? (cs : List Char) : Option (Kind × List Char) :=
  let sign := signOf cs
  let cs := cs.drop sign.length
  let whole := digitsOf cs
  let cs := cs.drop whole.length
  let fraction := fractionOf cs
  if whole = [] then
    if fraction = [] then none else some (.float, sign ++ fraction)
  else
    let exponent := exponentOf (cs.drop fraction.length)
    let kind := if fraction = [] ∧ exponent = [] then .integer else .float
    some (kind, sign ++ whole ++ fraction ++ exponent)

def wordKind (name : List Char) : Kind :=
  let lower := name.map Char.toLower
  if lower = ['t', 'r', 'u', 'e'] then .trueWord
  else if lower = ['f', 'a', 'l', 's', 'e'] then .falseWord
  else if lower = ['n', 'u', 'l', 'l'] then .nullWord
  else .name

def punctuation? : Char → Option Kind
  | '@' => some .atSign
  | '(' => some .parenOpen
  | ')' => some .parenClose
  | '\x7b' => some .braceOpen
  | '\x7d' => some .braceClose
  | ',' => some .comma
  | '=' => some .equals
  | ':' => some .colon
  | _ => none

/-- The lexeme at the front of the text `c :: cs`, which is no gap. A quote that nothing closes
spoils the whole rest of the text. -/
def lexeme (c : Char) (cs : List Char) : Kind × List Char :=
  if c = '"' then
    match closing? cs with
    | some rest => (.string, c :: rest)
    | none => (.stray, c :: cs)
  else if isNameStart c then
    let name := c :: cs.takeWhile isNameRest
    (wordKind name, name)
  else
    match number? (c :: cs) with
    | some number => number
    | none => ((punctuation? c).getD .stray, [c])

/-- The tokens of a text that starts at `position`, after `skip` characters that a token has
taken already. -/
def scanFrom (skip position : Nat) : List Char → List Token
  | [] => [finishAt position]
  | c :: cs =>
    match skip with
    | skip + 1 => scanFrom skip (position + c.utf8Size) cs
    | 0 =>
      if isGap c then scanFrom 0 (position + c.utf8Size) cs
      else
        let (kind, text) := lexeme c cs
        ⟨kind, String.ofList text, ⟨position, position + Text.width text⟩⟩
          :: scanFrom (text.length - 1) (position + c.utf8Size) cs

theorem scanFrom_skip (skip position : Nat) (cs : List Char) :
    scanFrom skip position cs =
      scanFrom 0 (position + Text.width (cs.take skip)) (cs.drop skip) := by
  induction cs generalizing skip position with
  | nil => cases skip <;> simp [scanFrom]
  | cons c cs ih =>
    cases skip with
    | zero => simp
    | succ skip => simp [scanFrom, ih skip, Nat.add_assoc]

def scan (position : Nat) (cs : List Char) : List Token := scanFrom 0 position cs

def ofText (source : String) (base : Nat) : List Token := scan base source.toList

end DocMarks.Token
