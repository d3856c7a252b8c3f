import DocMarks.Json.Raw

namespace DocMarks.Json.Raw

mutual

def depth : Raw → Nat
  | .list items => depthItems items + 1
  | .object members => depthMembers members + 1
  | _ => 0
termination_by structural j => j

def depthItems : List Raw → Nat
  | [] => 0
  | j :: rest => max j.depth (depthItems rest)
termination_by structural items => items

def depthMembers : List (Units × Raw) → Nat
  | [] => 0
  | (_, j) :: rest => max j.depth (depthMembers rest)
termination_by structural members => members

end

def chars? (us : Units) : Option String := (us.mapM id).map String.ofList

def text? : Raw → Option String
  | .string us => chars? us
  | _ => none

def isNull : Raw → Bool
  | .null => true
  | _ => false

def natural? : Raw → Option Nat
  | .number cs => (Numeral.natural? cs).filter (· < UInt64.size)
  | _ => none

def list? : Raw → Option (List Raw)
  | .list items => some items
  | _ => none

def object? : Raw → Option (List (String × Raw))
  | .object members => members.mapM fun (k, j) => (chars? k).map (·, j)
  | _ => none

inductive Strangers where
  | skipped
  | refused
  deriving DecidableEq

def record? (fields : List String) (strangers : Strangers) (j : Raw) :
    Option (List (String × Raw)) :=
  match j with
  | .list items => if items.length ≤ fields.length then some (fields.zip items) else none
  | j => do
    let members ← j.object?
    let given := members.filter fun (k, _) => fields.contains k
    if strangers = .refused ∧ given.length < members.length then none
    else if (given.map Prod.fst).Nodup then some given
    else none

/-- A name out of several, alone or as the only member of an object, with the value null. -/
def choice? : Raw → Option String
  | .object [(k, j)] => if j.isNull then chars? k else none
  | j => j.text?

end DocMarks.Json.Raw
