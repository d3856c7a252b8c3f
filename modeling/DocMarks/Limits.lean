namespace DocMarks

/-- Each list of attributes and each table counts as one level. -/
structure Limits where
  maxDepth : Nat
  deriving DecidableEq, Repr

instance : Inhabited Limits := ⟨⟨64⟩⟩

end DocMarks
