import DocMarks.Text.Basic

/-!
Quoted text: a quote inside is written twice. A quoted text may run over several comment lines;
reading it takes off the stars that lead each line after the first.
-/

namespace DocMarks.Text.Quoted

def double : List Char → List Char
  | [] => []
  | c :: cs => if c = '"' then '"' :: '"' :: double cs else c :: double cs

def undouble : List Char → List Char
  | [] => []
  | '"' :: '"' :: cs => '"' :: undouble cs
  | c :: cs => c :: undouble cs

def encode (cs : List Char) : List Char := '"' :: (double cs ++ ['"'])

def isIndent (c : Char) : Bool := c == ' ' || c == '\t'

/-- The margin of a comment line is an indent, a run of stars and one space; a line whose first
character after the indent is no star has none. -/
def dropMargin (line : List Char) : List Char :=
  match line.dropWhile isIndent with
  | '*' :: rest =>
    match rest.dropWhile (· == '*') with
    | ' ' :: rest => rest
    | rest => rest
  | _ => line

def unwrap : List (List Char) → List Char
  | [] => []
  | first :: rest => first ++ rest.flatMap fun line => '\n' :: dropMargin line

def decode (cs : List Char) : List Char :=
  undouble (unwrap (splitOn '\n' cs.tail.dropLast))

@[simp] theorem undouble_double (cs : List Char) : undouble (double cs) = cs := by
  induction cs with
  | nil => rfl
  | cons c cs ih =>
    by_cases h : c = '"'
    · simp [double, undouble, h, ih]
    · simp [double, undouble, h, ih]

end DocMarks.Text.Quoted
