import DocMarks.Value.Basic
import DocMarks.Text.Quoted

namespace DocMarks

/-- Numbers from 10⁻⁴ to below 10¹⁶ are written plainly, an exponent has a sign only when it is
negative, and of two equally near decimals the one farther from zero is taken. -/
def Value.floats : Binary64.Layout where
  tie := .awayFromZero
  plainFrom := -4
  plainBelow := 16
  plus := ""
  infinity := "inf"
  negativeInfinity := "-inf"
  nan := "NaN"

def Value.quote (s : String) : String := String.ofList (Text.Quoted.encode s.toList)

def Key.render : Key → String
  | .int i => toString i.toInt
  | .string s => Value.quote s

def Key.member : Key → String
  | .int i => toString i.toInt
  | .string s => s

mutual

def Value.render : Value → String
  | .null => "null"
  | .bool b => if b then "true" else "false"
  | .int i => toString i.toInt
  | .float x => Value.floats.render x
  | .string s => Value.quote s
  | .table t => t.render
  | .marker m => m.render
termination_by structural v => v

def Table.render : Table → String
  | ⟨entries, _⟩ =>
    let pieces :=
      if Table.countsFrom 0 (Entries.keys entries) then Value.renderItems entries
      else Value.renderEntries entries
    "\x7b" ++ String.intercalate ", " pieces ++ "\x7d"
termination_by structural t => t

def Marker.render : Marker → String
  | ⟨type, attributes⟩ =>
    "@" ++ type.name ++ "(" ++ String.intercalate ", " (Value.renderAttributes attributes) ++ ")"
termination_by structural m => m

def Value.renderItems : List (Key × Value) → List String
  | [] => []
  | (_, v) :: rest => v.render :: Value.renderItems rest
termination_by structural es => es

def Value.renderEntries : List (Key × Value) → List String
  | [] => []
  | (k, v) :: rest => (k.render ++ ": " ++ v.render) :: Value.renderEntries rest
termination_by structural es => es

def Value.renderAttributes : List (String × Value) → List String
  | [] => []
  | (k, v) :: rest => (k ++ "=" ++ v.render) :: Value.renderAttributes rest
termination_by structural es => es

end

mutual

def Value.toJson : Value → Json
  | .null => .null
  | .bool b => .bool b
  | .int i => .integer i.toInt
  | .float x => .float x
  | .string s => .string s
  | .table t => t.toJson
  | .marker m => m.toJson
termination_by structural v => v

def Table.toJson : Table → Json
  | ⟨entries, _⟩ =>
    if Table.countsFrom 0 (Entries.keys entries) then .list (Value.jsonItems entries)
    else .object (Value.jsonMembers entries)
termination_by structural t => t

def Marker.toJson : Marker → Json
  | ⟨type, attributes⟩ =>
    .object [("name", .string type.name), ("attributes", .object (Value.jsonAttributes attributes))]
termination_by structural m => m

def Value.jsonItems : List (Key × Value) → List Json
  | [] => []
  | (_, v) :: rest => v.toJson :: Value.jsonItems rest
termination_by structural es => es

def Value.jsonMembers : List (Key × Value) → List (String × Json)
  | [] => []
  | (k, v) :: rest => (k.member, v.toJson) :: Value.jsonMembers rest
termination_by structural es => es

def Value.jsonAttributes : List (String × Value) → List (String × Json)
  | [] => []
  | (k, v) :: rest => (k, v.toJson) :: Value.jsonAttributes rest
termination_by structural es => es

end

end DocMarks
