import DocMarks.Proofs.Checked

/-! Reading as a machine that checks itself. The place among the tokens is an index, open brackets are
counted, and every recursion takes fuel: the machine does not look at shapes or at tokens to see that it
comes to an end. A check that fails and fuel that is used up both leave it without an outcome, which is
neither a result nor a fault. -/

namespace DocMarks

/-- The checks of a machine: the text of a token, a quoted text without its quotes, and the number of
open brackets after one more was opened. -/
structure Machine.Checks where
  text? : Token → Option String
  unquote? : String → Option String
  increment? : Nat → Option Nat

def Machine.Checks.against (source : String) : Machine.Checks where
  text? t := Text.slice? source t.span
  unquote? := DocMarks.unquote?
  increment? := Count.increment?

def Machine.Checks.trusting : Machine.Checks where
  text? t := some t.text
  unquote? text := some (unquote text)
  increment? n := some (n + 1)

structure Machine extends Machine.Checks where
  tokens : List Token
  limit : Nat

namespace Machine

structure State where
  index : Nat
  depth : Nat

/-- A step keeps the state that it has come to also where it fails. -/
abbrev Step := ExceptT Fault.Located (StateT State Option)

inductive Turn (α : Type) where
  | goesOn (x : α)
  | ends (x : α)

variable {α : Type}

def outcome (x : Step α) (s : State) : Option (Except Fault.Located α × State) := x.run.run s

def check (x : Option α) : Step α := ExceptT.lift (StateT.lift x)

def closing (x : Step α) : Step α := ExceptT.mk do
  let r ← x.run
  let s ← get
  let depth ← StateT.lift (Count.decrement? s.depth)
  set { s with depth }
  return r

def loop (turn : Step (Turn α)) (again : α → Step α) : Step α := do
  match ← turn with
  | .goesOn x => again x
  | .ends x => return x

variable (M : Machine)

def tokenAt (index : Nat) : Step Token := do
  let t ← check M.tokens[index]?
  let text ← check (M.text? t)
  return { t with text }

def lookahead : Step Token := do
  let s ← get
  M.tokenAt s.index

def glimpse : Step Token := do
  let last ← check (Count.decrement? M.tokens.length)
  let s ← get
  M.tokenAt (min (s.index + 1) last)

def previous : Step (Option Token) := do
  let s ← get
  match s.index with
  | 0 => return none
  | index + 1 => return some (← M.tokenAt index)

def advance : Step Token := do
  let last ← check (Count.decrement? M.tokens.length)
  let s ← get
  let t ← M.tokenAt s.index
  if s.index < last then set { s with index := s.index + 1 }
  return t

def isGlued : Step Bool := do
  let t ← M.lookahead
  return (← M.previous).any fun previous => previous.span.stop == t.span.start

def unexpected (expected : String) : Step α := do
  let t ← M.lookahead
  throw (Fault.unexpectedToken expected t)

def expect (kind : Token.Kind) : Step Token := do
  let t ← M.lookahead
  if t.kind = kind then M.advance else M.unexpected kind.describe

def name? : Step (Option String) := do
  let t ← M.lookahead
  if t.kind = .string then return some (← check (M.unquote? t.text)) else return t.name?

def literalOf (t : Token) : Step Literal :=
  if t.kind = .string then return .string (← check (M.unquote? t.text))
  else MonadExcept.ofExcept (Rule.literalOf t)

def literal : Step Literal := do
  let t ← M.lookahead
  let l ← M.literalOf t
  let _ ← M.advance
  return l

def scalar (kind : ScalarKind) (owner : Owner) : Step Value := do
  let t ← M.lookahead
  let l ← M.literal
  match l.coerce t.text kind with
  | .ok v => return v
  | .error m => throw ⟨.badValue owner.marker owner.key (.mismatch m), t.span⟩

def nested (x : Step α) : Step α := do
  let s ← get
  if M.limit ≤ s.depth then
    let t ← M.lookahead
    throw ⟨.tooDeep M.limit, t.span⟩
  else
    let depth ← check (M.increment? s.depth)
    set { s with depth }
    closing x

def itemsTurn (item : Step Value) (t : Table) : Step (Turn Table) := do
  let current ← M.lookahead
  match current.kind with
  | .braceClose => do
    let _ ← M.advance
    return .ends t
  | .comma => do
    let _ ← M.advance
    return .goesOn t
  | kind => do
    let next ← M.glimpse
    if kind.isLiteral && next.kind == .colon then do
      let l ← M.literal
      let _ ← M.expect .colon
      let v ← item
      let t ← check (t.insert? l.toKey v)
      return .goesOn t
    else do
      let v ← item
      let t ← check (t.insert? t.nextKey v)
      return .goesOn t

def table (items : Table → Step Table) : Step Value := do
  let _ ← M.expect .braceOpen
  let t ← items {}
  return .table t

def entry (value? : String → Option (Step Value)) (m : Marker) : Step Marker := do
  let key ← M.expect .name
  match value? key.text with
  | none => throw ⟨.unknownAttribute m.name key.text, key.span⟩
  | some value => do
    let _ ← M.expect .equals
    let start ← M.lookahead
    let v ← value
    match m.set key.text v with
    | .ok m => return m
    | .error r => throw ⟨.badValue m.name key.text (.refused r), start.span⟩

def entriesTurn (value? : String → Option (Step Value)) (m : Marker) : Step (Turn Marker) := do
  let current ← M.lookahead
  match current.kind with
  | .parenClose => do
    let _ ← M.advance
    return .ends m
  | .comma => do
    let _ ← M.advance
    return .goesOn m
  | .name => do
    let m ← M.entry value? m
    return .goesOn m
  | _ => M.unexpected "attribute name or ')'"

def attributes (entries : Marker → Step Marker) (m : Marker) : Step Marker := do
  let _ ← M.expect .parenOpen
  entries m

def tag (name : String) (owner : Owner) : Step Unit := do
  let sign ← M.lookahead
  if sign.kind = .atSign then
    let _ ← M.advance
    match ← M.name? with
    | none => M.unexpected Token.Kind.name.describe
    | some found =>
      let t ← M.advance
      if found = name then return ()
      else throw ⟨.badValue owner.marker owner.key (.tag name found), t.span⟩

def tagged (t : MarkerType) (entries : Marker → Step Marker) (owner : Owner) : Step Value := do
  M.tag t.name owner
  let m ← M.attributes entries (.fresh t)
  return .marker m

def value? (read : Shape → Owner → Step Value) (t : MarkerType) (key : String) :
    Option (Step Value) :=
  (t.shape? key).map fun shape => read shape ⟨t.name, key⟩

mutual

def value : Nat → Shape → Owner → Step Value
  | 0, _, _ => check none
  | _ + 1, .scalar kind, owner => M.scalar kind owner
  | fuel + 1, .tableOf shape, owner => M.nested (M.table (items fuel shape owner))
  | fuel + 1, .marker t, owner => M.nested (M.tagged t (entries fuel t) owner)
termination_by structural fuel => fuel

def items : Nat → Shape → Owner → Table → Step Table
  | 0, _, _, _ => check none
  | fuel + 1, shape, owner, t =>
    loop (M.itemsTurn (value fuel shape owner) t) (items fuel shape owner)
termination_by structural fuel => fuel

def entries : Nat → MarkerType → Marker → Step Marker
  | 0, _, _ => check none
  | fuel + 1, t, m => loop (M.entriesTurn (value? (value fuel) t) m) (entries fuel t)
termination_by structural fuel => fuel

end

def marker? (fuel : Nat) (v : Vocabulary) : Step (Option Marker) := do
  let _ ← M.advance
  match ← M.name? with
  | none => return none
  | some name =>
    let _ ← M.advance
    match v.lookup? name with
    | none => return none
    | some t =>
      let next ← M.lookahead
      if next.kind = .parenOpen then
        let m ← M.nested (M.attributes (M.entries fuel t) (.fresh t))
        return some m
      else return some (.fresh t)

def markersTurn (marker? : Step (Option Marker)) (ms : List Marker) :
    Step (Turn (List Marker)) := do
  let s ← get
  check (if s.depth = 0 then some () else none)
  let t ← M.lookahead
  let glued ← M.isGlued
  if t.kind = .finish then return .ends ms
  else if t.kind != .atSign || glued then
    let _ ← M.advance
    return .goesOn ms
  else
    let m? ← marker?
    return .goesOn (ms ++ m?.toList)

def markers : Nat → Vocabulary → List Marker → Step (List Marker)
  | 0, _, _ => check none
  | fuel + 1, v, ms => loop (M.markersTurn (M.marker? fuel v) ms) (markers fuel v)

end Machine
end DocMarks
