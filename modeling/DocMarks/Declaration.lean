import DocMarks.Dialect

namespace DocMarks

inductive Declaration.Kind where
  | classes
  | methods
  | properties
  deriving DecidableEq, Repr

namespace Declaration.Kind

def all : List Kind := [.classes, .methods, .properties]

def name : Kind → String
  | .classes => "class"
  | .methods => "method"
  | .properties => "property"

def ofName? (name : String) : Option Kind := all.find? fun k => k.name == name

end Declaration.Kind

structure Declaration where
  kind : Declaration.Kind
  comment : Option String

structure Dialects where
  ofClass : Dialect
  ofMethod : Dialect
  ofProperty : Dialect

namespace Dialects

def uniform (d : Dialect) : Dialects := ⟨d, d, d⟩

def dialect (ds : Dialects) : Declaration.Kind → Dialect
  | .classes => ds.ofClass
  | .methods => ds.ofMethod
  | .properties => ds.ofProperty

def setDialect (ds : Dialects) (kind : Declaration.Kind) (d : Dialect) : Dialects :=
  match kind with
  | .classes => { ds with ofClass := d }
  | .methods => { ds with ofMethod := d }
  | .properties => { ds with ofProperty := d }

@[simp] theorem dialect_setDialect (ds : Dialects) (kind : Declaration.Kind) (d : Dialect) :
    (ds.setDialect kind d).dialect kind = d := by
  cases kind <;> rfl

theorem dialect_setDialect_of_ne (ds : Dialects) {kind other : Declaration.Kind} (d : Dialect)
    (h : other ≠ kind) : (ds.setDialect kind d).dialect other = ds.dialect other := by
  cases kind <;> cases other <;> simp_all [setDialect, dialect]

/-- Adds types for one kind of declaration: all of them, or none if a name is taken. -/
def extend (ds : Dialects) (kind : Declaration.Kind) (ts : List MarkerType) :
    Except Vocabulary.Duplicate Dialects :=
  ((ds.dialect kind).registerAll ts).map (ds.setDialect kind)

def read (ds : Dialects) (d : Declaration) : Except ReadError Findings :=
  (ds.dialect d.kind).read (d.comment.getD "")

end Dialects
end DocMarks
