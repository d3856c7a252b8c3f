import DocMarks.Binary64.Basic

/-!
The shortest decimal that reads back as a given number, and its spelling. Of the shortest ones
the nearest is taken; what happens when two are equally near is up to the format.
-/

namespace DocMarks

structure Decimal where
  digits : Nat
  exponent : Int
  deriving DecidableEq, Repr

def Decimal.strip : Nat → Decimal → Decimal
  | 0, d => d
  | count + 1, d =>
    if d.digits % 10 = 0 then strip count ⟨d.digits / 10, d.exponent + 1⟩ else d

inductive Tie where
  | awayFromZero
  | even
  deriving DecidableEq, Repr

namespace Binary64

/-- The numbers that round to a magnitude, in quarters of a unit: between `low` and `high`, the
ends being in if `closed`. -/
structure Basin where
  low : Nat
  middle : Nat
  high : Nat
  closed : Bool

/-- Half the way to each neighbour. The one below a power of two is half as far as the one above,
unless the gap is a unit already. -/
def basin (units : Nat) : Basin where
  low :=
    if units = Nat.pow 2 units.log2 ∧ 1 < gap units then 4 * units - gap units
    else 4 * units - 2 * gap units
  middle := 4 * units
  high := 4 * units + 2 * gap units
  closed := units / gap units % 2 == 0

/-- The basin in quarters of a unit on a grid of steps `10 ^ exponent`: a grid point `c` has the
same place as `c * step` once the basin's bounds are multiplied by `scale`. -/
structure Grid where
  scale : Nat
  step : Nat

def grid (exponent : Int) : Grid :=
  if 0 ≤ exponent then ⟨1, 4 * one * Nat.pow 10 exponent.toNat⟩
  else ⟨Nat.pow 10 (-exponent).toNat, 4 * one⟩

def Basin.contains (b : Basin) (g : Grid) (c : Nat) : Bool :=
  if b.closed then b.low * g.scale ≤ c * g.step && c * g.step ≤ b.high * g.scale
  else b.low * g.scale < c * g.step && c * g.step < b.high * g.scale

def Basin.nearest? (b : Basin) (tie : Tie) (g : Grid) : Option Nat :=
  let below := b.middle * g.scale / g.step
  let rest := b.middle * g.scale % g.step
  match b.contains g below, b.contains g (below + 1) with
  | false, false => none
  | true, false => some below
  | false, true => some (below + 1)
  | true, true =>
    if 2 * rest < g.step then some below
    else if g.step < 2 * rest then some (below + 1)
    else
      match tie with
      | .awayFromZero => some (below + 1)
      | .even => some (below + below % 2)

/-- The exponent of the leading decimal digit. For a fraction it is `-k` for the least `k` with
`one ≤ units * 10 ^ k`, and `k` is the number of digits of the largest whole number below
`one / units`. -/
def leadingExponent (units : Nat) : Int :=
  if one ≤ units then ((Nat.toDigits 10 (units / one)).length : Int) - 1
  else -((Nat.toDigits 10 ((one - 1) / units)).length : Int)

def shortestFrom (b : Basin) (tie : Tie) (leading : Int) (digits : Nat) : Nat → Decimal
  | 0 => ⟨0, 0⟩
  | tries + 1 =>
    let exponent := leading - digits + 1
    match b.nearest? tie (grid exponent) with
    | some c => Decimal.strip digits ⟨c, exponent⟩
    | none => shortestFrom b tie leading (digits + 1) tries

def shortest (tie : Tie) (units : Nat) : Decimal :=
  if units = 0 then ⟨0, 0⟩ else shortestFrom (basin units) tie (leadingExponent units) 1 17

end Binary64
end DocMarks
