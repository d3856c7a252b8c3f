import DocMarks.Binary64.Layout

namespace DocMarks

inductive Json where
  | null
  | bool (b : Bool)
  | integer (i : Int)
  | float (x : Binary64)
  | string (s : String)
  | list (items : List Json)
  | object (members : List (String × Json))

namespace Json

/-- Numbers from 10⁻⁵ to below 10¹⁶ are written plainly, an exponent always has a sign, an even
last digit decides a tie, and what is not finite is `null`. -/
def floats : Binary64.Layout where
  tie := .even
  plainFrom := -5
  plainBelow := 16
  plus := "+"
  infinity := "null"
  negativeInfinity := "null"
  nan := "null"

def hexDigit (n : Nat) : Char := Nat.digitChar n

def escape (c : Char) : List Char :=
  if c = '"' then ['\\', '"']
  else if c = '\\' then ['\\', '\\']
  else if c = '\n' then ['\\', 'n']
  else if c = '\r' then ['\\', 'r']
  else if c = '\t' then ['\\', 't']
  else if c.toNat = 8 then ['\\', 'b']
  else if c.toNat = 12 then ['\\', 'f']
  else if c.toNat < 32 then ['\\', 'u', '0', '0', hexDigit (c.toNat / 16), hexDigit (c.toNat % 16)]
  else [c]

def quote (s : String) : String :=
  String.ofList ('"' :: (s.toList.flatMap escape ++ ['"']))

def leaf : Json → String
  | .null => "null"
  | .bool b => if b then "true" else "false"
  | .integer i => toString i
  | .float x => floats.render x
  | .string s => quote s
  | .list _ => "[]"
  | .object _ => "\x7b\x7d"

mutual

def compact : Json → String
  | .list items => "[" ++ compactItems items ++ "]"
  | .object members => "\x7b" ++ compactMembers members ++ "\x7d"
  | j => j.leaf
termination_by structural j => j

def compactItems : List Json → String
  | [] => ""
  | [j] => j.compact
  | j :: rest => j.compact ++ "," ++ compactItems rest
termination_by structural items => items

def compactMembers : List (String × Json) → String
  | [] => ""
  | [(k, j)] => quote k ++ ":" ++ j.compact
  | (k, j) :: rest => quote k ++ ":" ++ j.compact ++ "," ++ compactMembers rest
termination_by structural members => members

end

def newline (indent : Nat) : String := "\n" ++ String.ofList (List.replicate (2 * indent) ' ')

mutual

def pretty (indent : Nat) : Json → String
  | .list (j :: rest) =>
    "[" ++ newline (indent + 1) ++ j.pretty (indent + 1) ++ prettyItems (indent + 1) rest
      ++ newline indent ++ "]"
  | .object ((k, j) :: rest) =>
    "\x7b" ++ newline (indent + 1) ++ quote k ++ ": " ++ j.pretty (indent + 1)
      ++ prettyMembers (indent + 1) rest ++ newline indent ++ "\x7d"
  | j => j.leaf
termination_by structural j => j

def prettyItems (indent : Nat) : List Json → String
  | [] => ""
  | j :: rest => "," ++ newline indent ++ j.pretty indent ++ prettyItems indent rest
termination_by structural items => items

def prettyMembers (indent : Nat) : List (String × Json) → String
  | [] => ""
  | (k, j) :: rest =>
    "," ++ newline indent ++ quote k ++ ": " ++ j.pretty indent ++ prettyMembers indent rest
termination_by structural members => members

end

end Json
end DocMarks
