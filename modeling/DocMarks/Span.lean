namespace DocMarks

structure Span where
  start : Nat
  stop : Nat
  deriving DecidableEq, Repr

namespace Span

def point (position : Nat) : Span := ⟨position, position⟩

instance : Inhabited Span := ⟨point 0⟩

def merge (s t : Span) : Span := ⟨min s.start t.start, max s.stop t.stop⟩

def shift (s : Span) (n : Nat) : Span := ⟨s.start + n, s.stop + n⟩

def length (s : Span) : Nat := s.stop - s.start

def isEmpty (s : Span) : Bool := s.start == s.stop

def render (s : Span) : String := s!"{s.start}..{s.stop}"

@[simp] theorem shift_zero (s : Span) : s.shift 0 = s := rfl

@[simp] theorem shift_shift (s : Span) (m n : Nat) : (s.shift m).shift n = s.shift (m + n) := by
  simp [shift, Nat.add_assoc]

@[simp] theorem length_shift (s : Span) (n : Nat) : (s.shift n).length = s.length := by
  simp [shift, length, Nat.add_sub_add_right]

end Span
end DocMarks
