import DocMarks.Fault
import DocMarks.Token.Cursor

/-!
The grammar of markers as rules. A rule reads from a cursor, under an allowance of nesting levels,
and gives a value with the cursor after it. Every shape has a rule, by recursion on the shape;
lists of attributes and of table items are read in steps that each pass at least one token.

    attributes ::= '(' (',' | name '=' value)* ')'
    value      ::= literal | '{' (',' | (literal ':')? value)* '}' | ('@' name)? attributes
-/

namespace DocMarks

/-- How many levels of brackets may still be opened, of how many. -/
structure Allowance where
  limit : Nat
  left : Nat

structure Owner where
  marker : String
  key : String

abbrev Rule (α : Type) := Allowance → Cursor → Except Fault.Located (α × Cursor)

namespace Rule

def expect (kind : Token.Kind) (c : Cursor) : Except Fault.Located Cursor :=
  if c.current.kind = kind then .ok c.step
  else .error (Fault.unexpectedToken kind.describe c.current)

def nested {α : Type} (rule : Rule α) : Rule α := fun a c =>
  match a.left with
  | 0 => .error ⟨.tooDeep a.limit, c.current.span⟩
  | left + 1 => rule ⟨a.limit, left⟩ c

def literalOf (t : Token) : Except Fault.Located Literal :=
  match t.kind with
  | .name => .ok (.string t.text)
  | .string => .ok (.string (unquote t.text))
  | .integer =>
    match Numeral.int64? t.text.toList with
    | some i => .ok (.int i)
    | none => .error ⟨.badLiteral t.text, t.span⟩
  | .float =>
    match Numeral.binary64? t.text.toList with
    | some x => .ok (.float x)
    | none => .error ⟨.badLiteral t.text, t.span⟩
  | .trueWord => .ok (.bool true)
  | .falseWord => .ok (.bool false)
  | .nullWord => .ok .null
  | _ => .error (Fault.unexpectedToken "literal value" t)

def literal (c : Cursor) : Except Fault.Located (Literal × Cursor) := do
  let l ← literalOf c.current
  return (l, c.step)

def scalar (kind : ScalarKind) (owner : Owner) : Rule Value := fun _ c => do
  let (l, c') ← literal c
  match l.coerce c.current.text kind with
  | .ok v => return (v, c')
  | .error m => throw ⟨.badValue owner.marker owner.key (.mismatch m), c.current.span⟩

def items (item : Rule Value) : Nat → Table → Rule Table
  | 0, _, _, c => .error (Fault.unexpectedToken Token.Kind.braceClose.describe c.current)
  | steps + 1, t, a, c =>
    match c.current.kind with
    | .braceClose => .ok (t, c.step)
    | .comma => items item steps t a c.step
    | kind =>
      if kind.isLiteral && c.next.kind == .colon then do
        let (l, c) ← literal c
        let c ← expect .colon c
        let (v, c) ← item a c
        items item steps (t.insert l.toKey v) a c
      else do
        let (v, c) ← item a c
        items item steps (t.push v) a c

def table (item : Rule Value) : Rule Value := fun a c => do
  let c ← expect .braceOpen c
  let (t, c) ← items item (c.remaining + 1) {} a c
  return (.table t, c)

def entry (value? : String → Option (Rule Value)) (m : Marker) : Rule Marker := fun a c => do
  let key := c.current.text
  match value? key with
  | none => throw ⟨.unknownAttribute m.name key, c.current.span⟩
  | some value =>
    let c ← expect .equals c.step
    let (v, c') ← value a c
    match m.set key v with
    | .ok m => return (m, c')
    | .error r => throw ⟨.badValue m.name key (.refused r), c.current.span⟩

/-- The attributes of a marker up to the closing parenthesis. The count bounds the steps. -/
def entries (value? : String → Option (Rule Value)) : Nat → Marker → Rule Marker
  | 0, _, _, c => .error (Fault.unexpectedToken Token.Kind.parenClose.describe c.current)
  | steps + 1, m, a, c =>
    match c.current.kind with
    | .parenClose => .ok (m, c.step)
    | .comma => entries value? steps m a c.step
    | .name => do
      let (m, c) ← entry value? m a c
      entries value? steps m a c
    | _ => .error (Fault.unexpectedToken "attribute name or ')'" c.current)

def attributes (value? : String → Option (Rule Value)) (m : Marker) : Rule Marker := fun a c => do
  let c ← expect .parenOpen c
  entries value? (c.remaining + 1) m a c

def tag (name : String) (owner : Owner) (c : Cursor) : Except Fault.Located Cursor :=
  if c.current.kind = .atSign then
    let c := c.step
    match c.current.name? with
    | none => .error (Fault.unexpectedToken Token.Kind.name.describe c.current)
    | some found =>
      if found = name then .ok c.step
      else .error ⟨.badValue owner.marker owner.key (.tag name found), c.current.span⟩
  else .ok c

def tagged (t : MarkerType) (value? : String → Option (Rule Value)) (owner : Owner) : Rule Value :=
  fun a c => do
    let c ← tag t.name owner c
    let (m, c) ← attributes value? (.fresh t) a c
    return (.marker m, c)

end Rule

mutual

def Shape.rule : Shape → Owner → Rule Value
  | .scalar kind, owner => Rule.scalar kind owner
  | .tableOf s, owner => Rule.nested (Rule.table (s.rule owner))
  | .marker t, owner => Rule.nested (Rule.tagged t t.rule? owner)
termination_by structural s => s

def MarkerType.rule? : MarkerType → String → Option (Rule Value)
  | ⟨name, attributes⟩, key => Shape.ruleWithin name attributes key
termination_by structural t => t

def Shape.ruleWithin (marker : String) : List (String × Shape) → String → Option (Rule Value)
  | [], _ => none
  | (k, s) :: rest, key =>
    if k = key then some (s.rule ⟨marker, key⟩) else Shape.ruleWithin marker rest key
termination_by structural as => as

end

theorem Shape.ruleWithin_eq (marker : String) (attributes : List (String × Shape)) (key : String) :
    Shape.ruleWithin marker attributes key =
      (Entries.get? attributes key).map fun s => s.rule ⟨marker, key⟩ := by
  induction attributes with
  | nil => simp [Shape.ruleWithin, Entries.get?]
  | cons a rest ih =>
    obtain ⟨k, s⟩ := a
    simp only [Shape.ruleWithin, Entries.get?, ih]
    split <;> simp

theorem MarkerType.rule?_eq (t : MarkerType) (key : String) :
    t.rule? key = (t.shape? key).map fun s => s.rule ⟨t.name, key⟩ := by
  rcases t with ⟨name, attributes⟩
  simp [MarkerType.rule?, MarkerType.shape?, Shape.ruleWithin_eq]

end DocMarks
