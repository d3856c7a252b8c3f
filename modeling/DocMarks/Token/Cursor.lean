import DocMarks.Token.Basic

namespace DocMarks

structure Cursor where
  /-- The tokens that were passed, the latest first. -/
  behind : List Token
  current : Token
  ahead : List Token

namespace Cursor

def finished (ts : List Token) : List Token :=
  match ts.getLast? with
  | none => [.finishAt 0]
  | some last => if last.kind = .finish then ts else ts ++ [.finishAt last.span.stop]

def ofTokens (ts : List Token) : Cursor :=
  match finished ts with
  | [] => ⟨[], .finishAt 0, []⟩
  | t :: ts => ⟨[], t, ts⟩

def previous? (c : Cursor) : Option Token := c.behind.head?

/-- The token after the current one; the last one follows itself. -/
def next (c : Cursor) : Token := c.ahead.headD c.current

def step (c : Cursor) : Cursor :=
  match c.ahead with
  | [] => c
  | t :: ts => ⟨c.current :: c.behind, t, ts⟩

def position (c : Cursor) : Nat := c.behind.length

def remaining (c : Cursor) : Nat := c.ahead.length

def isGlued (c : Cursor) : Bool :=
  match c.previous? with
  | some t => t.span.stop == c.current.span.start
  | none => false

def isFinished (c : Cursor) : Bool := c.current.kind == .finish

theorem position_step {c : Cursor} (h : c.ahead ≠ []) : c.step.position = c.position + 1 := by
  rcases c with ⟨behind, t, _ | ⟨u, us⟩⟩
  · exact absurd rfl h
  · simp [step, position]

end Cursor
end DocMarks
