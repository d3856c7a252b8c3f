import DocMarks.Value.Basic

namespace DocMarks

mutual

def Value.equal : Value → Value → Bool
  | .null, .null => true
  | .bool a, .bool b => a == b
  | .int i, .int j => i == j
  | .float x, .float y => x.equal y
  | .string s, .string t => s == t
  | .table t, .table u => t.equal u
  | .marker m, .marker n => m.equal n
  | _, _ => false
termination_by structural v => v

def Table.equal : Table → Table → Bool
  | ⟨entries, _⟩, u => Value.equalEntries entries u.entries
termination_by structural t => t

def Marker.equal : Marker → Marker → Bool
  | ⟨type, attributes⟩, n =>
    type.name == n.type.name && attributes.length == n.attributes.length
      && Value.equalWithin attributes n.attributes
termination_by structural m => m

def Value.equalEntries : List (Key × Value) → List (Key × Value) → Bool
  | [], [] => true
  | (k, v) :: rest, (l, w) :: rest' => k == l && v.equal w && Value.equalEntries rest rest'
  | _, _ => false
termination_by structural es => es

def Value.equalWithin : List (String × Value) → List (String × Value) → Bool
  | [], _ => true
  | (k, v) :: rest, others =>
    (match Entries.get? others k with
      | some w => v.equal w
      | none => false)
    && Value.equalWithin rest others
termination_by structural es => es

end

end DocMarks
