import DocMarks.Binary64.Basic

namespace DocMarks.Numeral

def digit (c : Char) : Nat := c.toNat - '0'.toNat

def value (digits : List Char) : Nat :=
  digits.foldl (fun n c => 10 * n + digit c) 0

def sign : List Char → Bool × List Char
  | '-' :: cs => (true, cs)
  | '+' :: cs => (false, cs)
  | cs => (false, cs)

def natural? (cs : List Char) : Option Nat :=
  if cs ≠ [] ∧ cs.all Char.isDigit then some (value cs) else none

def integer? (cs : List Char) : Option Int :=
  let (negative, cs) := sign cs
  (natural? cs).map fun n => if negative then -(n : Int) else n

def fit? (z : Int) : Option Int64 :=
  if Int64.minValue.toInt ≤ z ∧ z ≤ Int64.maxValue.toInt then some (Int64.ofInt z) else none

def clamp (z : Int) : Int64 :=
  if z < Int64.minValue.toInt then Int64.minValue
  else if Int64.maxValue.toInt < z then Int64.maxValue
  else Int64.ofInt z

def int64? (cs : List Char) : Option Int64 := (integer? cs).bind fit?

def exponent? : List Char → Option Int
  | [] => some 0
  | c :: cs => if c = 'e' ∨ c = 'E' then integer? cs else none

def binary64? (cs : List Char) : Option Binary64 := do
  let (negative, cs) := sign cs
  let whole := cs.takeWhile Char.isDigit
  let (fraction, cs) :=
    match cs.dropWhile Char.isDigit with
    | '.' :: cs => (cs.takeWhile Char.isDigit, cs.dropWhile Char.isDigit)
    | cs => ([], cs)
  let exponent ← exponent? cs
  if whole = [] ∧ fraction = [] then none
  else some (.ofDecimal negative (value (whole ++ fraction)) (exponent - fraction.length))

end DocMarks.Numeral
