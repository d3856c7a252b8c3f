import DocMarks.Span

namespace DocMarks

inductive Token.Kind where
  | trueWord
  | falseWord
  | nullWord
  | integer
  | float
  | string
  | name
  | atSign
  | parenOpen
  | parenClose
  | braceOpen
  | braceClose
  | comma
  | equals
  | colon
  | stray
  | finish
  deriving DecidableEq, Repr

structure Token where
  kind : Token.Kind
  text : String
  span : Span
  deriving DecidableEq, Repr

namespace Token

def Kind.describe : Kind → String
  | .trueWord => "'true'"
  | .falseWord => "'false'"
  | .nullWord => "'null'"
  | .integer => "integer"
  | .float => "float"
  | .string => "string"
  | .name => "identifier"
  | .atSign => "'@'"
  | .parenOpen => "'('"
  | .parenClose => "')'"
  | .braceOpen => "'\x7b'"
  | .braceClose => "'\x7d'"
  | .comma => "','"
  | .equals => "'='"
  | .colon => "':'"
  | .stray => "unexpected character"
  | .finish => "end of string"

def Kind.isLiteral : Kind → Bool
  | .trueWord | .falseWord | .nullWord | .integer | .float | .string | .name => true
  | _ => false

def finishAt (position : Nat) : Token := ⟨.finish, "", .point position⟩

def shift (t : Token) (n : Nat) : Token := { t with span := t.span.shift n }

def found (t : Token) : String :=
  match t.kind with
  | .finish => "end of string"
  | _ => "'" ++ t.text ++ "'"

end Token
end DocMarks
