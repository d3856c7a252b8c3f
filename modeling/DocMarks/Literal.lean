import DocMarks.Numeral
import DocMarks.Text.Quoted
import DocMarks.Token.Basic
import DocMarks.Value.Basic

namespace DocMarks

inductive Literal where
  | null
  | bool (b : Bool)
  | int (i : Int64)
  | float (x : Binary64)
  | string (s : String)
  deriving DecidableEq, Repr

structure Mismatch where
  text : String
  expected : ScalarKind
  deriving DecidableEq, Repr

def Mismatch.message (m : Mismatch) : String :=
  s!"value {m.text} is not a valid {m.expected.name}"

def unquote (text : String) : String := String.ofList (Text.Quoted.decode text.toList)

def Token.name? (t : Token) : Option String :=
  match t.kind with
  | .name => some t.text
  | .string => some (unquote t.text)
  | _ => none

namespace Literal

def toValue : Literal → Value
  | .null => .null
  | .bool b => .bool b
  | .int i => .int i
  | .float x => .float x
  | .string s => .string s

def saturate : Binary64 → Int64
  | .finite negative units => Numeral.clamp (Binary64.whole negative units)
  | .infinite negative => if negative then Int64.minValue else Int64.maxValue
  | .nan => 0

def toKey : Literal → Key
  | .null => .string ""
  | .bool b => .int (if b then 1 else 0)
  | .int i => .int i
  | .float x => .int (saturate x.trunc)
  | .string s => .string s

/-- The numbers ±2⁶³. The positive one is the first beyond the range; the last one in it has more bits
than a float. -/
def bound (negative : Bool) : Binary64 := .finite negative (Nat.pow 2 63 * Binary64.one)

def fits (x : Binary64) : Bool :=
  x.isFinite && (bound true).le x.trunc && x.trunc.lt (bound false)

def truncate? (x : Binary64) : Option Int64 :=
  if fits x then some (saturate x.trunc) else none

/-- The value of a literal where `kind` is declared. A string takes the other scalars as they are
written, an integer the whole part of a float. -/
def coerce (l : Literal) (text : String) (kind : ScalarKind) : Except Mismatch Value :=
  match kind, l with
  | .mixed, l => .ok l.toValue
  | .string, .string s => .ok (.string s)
  | .string, .bool _ => .ok (.string text)
  | .string, .int _ => .ok (.string text)
  | .string, .float _ => .ok (.string text)
  | .integer, .int i => .ok (.int i)
  | .integer, .float x =>
    match truncate? x with
    | some i => .ok (.int i)
    | none => .error ⟨text, kind⟩
  | .float, .float x => .ok (.float x)
  | .bool, .bool b => .ok (.bool b)
  | _, _ => .error ⟨text, kind⟩

end Literal
end DocMarks
