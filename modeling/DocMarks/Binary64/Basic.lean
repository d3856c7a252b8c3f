/-!
Numbers of the IEEE 754 format binary64. The magnitude of a finite number is a whole number of
units of 2⁻¹⁰⁷⁴, the least positive number of the format, so all arithmetic on it is exact.
-/

namespace DocMarks

inductive Binary64 where
  | finite (negative : Bool) (units : Nat)
  | infinite (negative : Bool)
  | nan
  deriving DecidableEq, Repr

namespace Binary64

def one : Nat := Nat.pow 2 1074

def overflow : Nat := Nat.pow 2 2098

def gap (units : Nat) : Nat := Nat.pow 2 (units.log2 - 52)

def divNearest (n d : Nat) : Nat :=
  let q := n / d
  let r := n % d
  if 2 * r < d then q
  else if d < 2 * r then q + 1
  else q + q % 2

def ofRatio (negative : Bool) (n d : Nat) : Binary64 :=
  let g := gap (n * one / d)
  let units := divNearest (n * one) (d * g) * g
  if units < overflow then .finite negative units else .infinite negative

/-- The number of the format nearest to `digits * 10 ^ exponent`. What is not below 10³¹⁰ is beyond
the format, and what is below 10⁻³³⁰ is nearest to zero, so powers of ten stay small. -/
def ofDecimal (negative : Bool) (digits : Nat) (exponent : Int) : Binary64 :=
  if digits = 0 then .finite negative 0
  else
    let leading := exponent + (Nat.toDigits 10 digits).length
    if 310 < leading then .infinite negative
    else if leading < -330 then .finite negative 0
    else if 0 ≤ exponent then ofRatio negative (digits * Nat.pow 10 exponent.toNat) 1
    else ofRatio negative digits (Nat.pow 10 (-exponent).toNat)

def signed (negative : Bool) (units : Nat) : Int :=
  if negative then -(units : Int) else units

def whole (negative : Bool) (units : Nat) : Int := signed negative (units / one)

def trunc : Binary64 → Binary64
  | .finite negative units => .finite negative (units / one * one)
  | x => x

def isFinite : Binary64 → Bool
  | .finite _ _ => true
  | _ => false

def le : Binary64 → Binary64 → Bool
  | .finite m u, .finite n v => signed m u ≤ signed n v
  | .finite _ _, .infinite n => !n
  | .infinite m, .finite _ _ => m
  | .infinite m, .infinite n => m || !n
  | _, _ => false

def lt (x y : Binary64) : Bool := x.le y && !y.le x

def equal : Binary64 → Binary64 → Bool
  | .finite m u, .finite n v => u == v && (m == n || u == 0)
  | .infinite m, .infinite n => m == n
  | _, _ => false

end Binary64
end DocMarks
