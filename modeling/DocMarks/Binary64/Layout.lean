import DocMarks.Binary64.Shortest

namespace DocMarks.Binary64

structure Layout where
  tie : Tie
  /-- Numbers are written without an exponent when that of their leading digit is at least
  `plainFrom` and below `plainBelow`. -/
  plainFrom : Int
  plainBelow : Int
  /-- The sign of an exponent that is not negative. -/
  plus : String
  infinity : String
  negativeInfinity : String
  nan : String

namespace Layout

def digits (n : Nat) : String := String.ofList (Nat.toDigits 10 n)

def zeros (n : Nat) : String := String.ofList (List.replicate n '0')

def plain (d : Decimal) : String :=
  let ds := Nat.toDigits 10 d.digits
  if 0 ≤ d.exponent then digits d.digits ++ zeros d.exponent.toNat ++ ".0"
  else
    let places := (-d.exponent).toNat
    if places < ds.length then
      let whole := ds.length - places
      String.ofList (ds.take whole) ++ "." ++ String.ofList (ds.drop whole)
    else "0." ++ zeros (places - ds.length) ++ digits d.digits

def scientific (l : Layout) (d : Decimal) (leading : Int) : String :=
  let mantissa :=
    match Nat.toDigits 10 d.digits with
    | first :: second :: rest => String.ofList (first :: '.' :: second :: rest)
    | ds => String.ofList ds
  let mark := if leading < 0 then "e-" else "e" ++ l.plus
  mantissa ++ mark ++ digits leading.natAbs

def magnitude (l : Layout) (units : Nat) : String :=
  let d := shortest l.tie units
  let leading := d.exponent + (Nat.toDigits 10 d.digits).length - 1
  if l.plainFrom ≤ leading ∧ leading < l.plainBelow then plain d else l.scientific d leading

def render (l : Layout) : Binary64 → String
  | .finite negative units => if negative then "-" ++ l.magnitude units else l.magnitude units
  | .infinite negative => if negative then l.negativeInfinity else l.infinity
  | .nan => l.nan

end Layout
end DocMarks.Binary64
