import DocMarks.Numeral

/-!
JSON as read. Numbers keep their spelling, and a string may hold halves of surrogate pairs, which
are no characters: what is skipped need not have a meaning, only the right form.
-/

namespace DocMarks.Json

/-- The characters of a string; `none` is a surrogate without its other half. -/
abbrev Units := List (Option Char)

inductive Raw where
  | null
  | bool (b : Bool)
  | number (text : List Char)
  | string (units : Units)
  | list (items : List Raw)
  | object (members : List (Units × Raw))

namespace Raw

def isSpace (c : Char) : Bool := c == ' ' || c == '\t' || c == '\n' || c == '\r'

def skip (cs : List Char) : List Char := cs.dropWhile isSpace

def hex? (c : Char) : Option Nat :=
  if c.isDigit then some (c.toNat - '0'.toNat)
  else if 'a' ≤ c ∧ c ≤ 'f' then some (c.toNat - 'a'.toNat + 10)
  else if 'A' ≤ c ∧ c ≤ 'F' then some (c.toNat - 'A'.toNat + 10)
  else none

def hex4? (a b c d : Char) : Option Nat := do
  return ((← hex? a) * 16 + (← hex? b)) * 256 + (← hex? c) * 16 + (← hex? d)

def simpleEscape? : Char → Option Char
  | '"' => some '"'
  | '\\' => some '\\'
  | '/' => some '/'
  | 'b' => some '\x08'
  | 'f' => some '\x0c'
  | 'n' => some '\n'
  | 'r' => some '\r'
  | 't' => some '\t'
  | _ => none

inductive Piece where
  | char (c : Char)
  | code (n : Nat)

def isHigh (n : Nat) : Bool := 0xD800 ≤ n && n < 0xDC00

def isLow (n : Nat) : Bool := 0xDC00 ≤ n && n < 0xE000

def pair (high low : Nat) : Char := Char.ofNat (0x10000 + (high - 0xD800) * 0x400 + (low - 0xDC00))

/-- Joins surrogates to pairs; `waiting` is the first half of one. -/
def units (waiting : Option Nat) : List Piece → Units
  | [] => waiting.toList.map fun _ => none
  | .char c :: rest => (waiting.toList.map fun _ => none) ++ some c :: units none rest
  | .code n :: rest =>
    if isHigh n then (waiting.toList.map fun _ => none) ++ units (some n) rest
    else if isLow n then waiting.map (pair · n) :: units none rest
    else (waiting.toList.map fun _ => none) ++ some (Char.ofNat n) :: units none rest

def pieces : List Char → Option (List Piece × List Char)
  | [] => none
  | '"' :: cs => some ([], cs)
  | '\\' :: 'u' :: a :: b :: c :: d :: cs => do
    let n ← hex4? a b c d
    let (ps, cs) ← pieces cs
    return (.code n :: ps, cs)
  | '\\' :: e :: cs => do
    let c ← simpleEscape? e
    let (ps, cs) ← pieces cs
    return (.char c :: ps, cs)
  | c :: cs =>
    if c.toNat < 0x20 ∨ c = '\\' then none
    else do
      let (ps, cs) ← pieces cs
      return (.char c :: ps, cs)

def string? (cs : List Char) : Option (Units × List Char) :=
  (pieces cs).map fun (ps, cs) => (units none ps, cs)

def digits? (cs : List Char) : Option (List Char × List Char) :=
  match cs.takeWhile Char.isDigit with
  | [] => none
  | ds => some (ds, cs.dropWhile Char.isDigit)

def whole? : List Char → Option (List Char × List Char)
  | '0' :: cs => if cs.head?.any Char.isDigit then none else some (['0'], cs)
  | cs => digits? cs

def fraction? : List Char → Option (List Char × List Char)
  | '.' :: cs => (digits? cs).map fun (ds, cs) => ('.' :: ds, cs)
  | cs => some ([], cs)

def exponent? : List Char → Option (List Char × List Char)
  | c :: cs =>
    if c = 'e' ∨ c = 'E' then
      match cs with
      | s :: cs' =>
        if s = '+' ∨ s = '-' then (digits? cs').map fun (ds, cs) => (c :: s :: ds, cs)
        else (digits? cs).map fun (ds, cs) => (c :: ds, cs)
      | [] => none
    else some ([], c :: cs)
  | [] => some ([], [])

def number? (cs : List Char) : Option (List Char × List Char) := do
  let (sign, cs) := match cs with
    | '-' :: cs => (['-'], cs)
    | cs => ([], cs)
  let (whole, cs) ← whole? cs
  let (fraction, cs) ← fraction? cs
  let (exponent, cs) ← exponent? cs
  return (sign ++ whole ++ fraction ++ exponent, cs)

mutual

def value? : Nat → List Char → Option (Raw × List Char)
  | 0, _ => none
  | fuel + 1, cs =>
    match skip cs with
    | 'n' :: 'u' :: 'l' :: 'l' :: cs => some (.null, cs)
    | 't' :: 'r' :: 'u' :: 'e' :: cs => some (.bool true, cs)
    | 'f' :: 'a' :: 'l' :: 's' :: 'e' :: cs => some (.bool false, cs)
    | '"' :: cs => (string? cs).map fun (us, cs) => (.string us, cs)
    | '[' :: cs =>
      match skip cs with
      | ']' :: cs => some (.list [], cs)
      | cs => (items? fuel cs).map fun (js, cs) => (.list js, cs)
    | '\x7b' :: cs =>
      match skip cs with
      | '\x7d' :: cs => some (.object [], cs)
      | cs => (members? fuel cs).map fun (ms, cs) => (.object ms, cs)
    | cs => (number? cs).map fun (text, cs) => (.number text, cs)
termination_by structural fuel => fuel

def items? : Nat → List Char → Option (List Raw × List Char)
  | 0, _ => none
  | fuel + 1, cs => do
    let (j, cs) ← value? fuel cs
    match skip cs with
    | ',' :: cs =>
      let (js, cs) ← items? fuel cs
      return (j :: js, cs)
    | ']' :: cs => return ([j], cs)
    | _ => none
termination_by structural fuel => fuel

def members? : Nat → List Char → Option (List (Units × Raw) × List Char)
  | 0, _ => none
  | fuel + 1, cs =>
    match skip cs with
    | '"' :: cs => do
      let (k, cs) ← string? cs
      match skip cs with
      | ':' :: cs =>
        let (j, cs) ← value? fuel cs
        match skip cs with
        | ',' :: cs =>
          let (ms, cs) ← members? fuel cs
          return ((k, j) :: ms, cs)
        | '\x7d' :: cs => return ([(k, j)], cs)
        | _ => none
      | _ => none
    | _ => none
termination_by structural fuel => fuel

end

def ofText? (text : String) : Option Raw :=
  let cs := text.toList
  match value? (2 * cs.length + 2) cs with
  | some (j, rest) => if skip rest = [] then some j else none
  | none => none

end Raw
end DocMarks.Json
