import DocMarks.Rule

/-! The grammar of markers as a relation between tokens and what they spell. A derivation chooses
freely where an item of a table has a key and where a list ends: nothing in it looks ahead. -/

namespace DocMarks

def Table.write (t : Table) : Option Key × Value → Table
  | (some k, v) => t.insert k v
  | (none, v) => t.push v

def Table.writeAll (t : Table) (items : List (Option Key × Value)) : Table :=
  items.foldl Table.write t

def Marker.setAll (m : Marker) (sets : List (String × Value)) : Except Marker.Refusal Marker :=
  sets.foldlM (fun m (k, v) => m.set k v) m

mutual

/-- The tokens spell a value of the shape, in brackets that are nested at most `n` deep. -/
inductive Shape.Derives : Shape → Nat → List Token → Value → Prop
  | scalar {kind n t l v} : Rule.literalOf t = .ok l → l.coerce t.text kind = .ok v →
      Shape.Derives (.scalar kind) n [t] v
  | table {s n opening ts closing items} : opening.kind = .braceOpen →
      Shape.DerivesItems s n ts items → closing.kind = .braceClose →
      Shape.Derives (.tableOf s) (n + 1) (opening :: (ts ++ [closing]))
        (.table (Table.writeAll {} items))
  | untagged {t n ts sets m} : MarkerType.DerivesAttributes t n ts sets →
      (Marker.fresh t).setAll sets = .ok m → Shape.Derives (.marker t) (n + 1) ts (.marker m)
  | tagged {t n sign tag ts sets m} : sign.kind = .atSign → tag.name? = some t.name →
      MarkerType.DerivesAttributes t n ts sets → (Marker.fresh t).setAll sets = .ok m →
      Shape.Derives (.marker t) (n + 1) (sign :: tag :: ts) (.marker m)

inductive Shape.DerivesItems : Shape → Nat → List Token → List (Option Key × Value) → Prop
  | nil {s n} : Shape.DerivesItems s n [] []
  | comma {s n comma ts items} : comma.kind = .comma → Shape.DerivesItems s n ts items →
      Shape.DerivesItems s n (comma :: ts) items
  | keyed {s n key l colon us v ts items} : Rule.literalOf key = .ok l → colon.kind = .colon →
      Shape.Derives s n us v → Shape.DerivesItems s n ts items →
      Shape.DerivesItems s n (key :: colon :: (us ++ ts)) ((some l.toKey, v) :: items)
  | pushed {s n us v ts items} : Shape.Derives s n us v → Shape.DerivesItems s n ts items →
      Shape.DerivesItems s n (us ++ ts) ((none, v) :: items)

inductive MarkerType.DerivesAttributes :
    MarkerType → Nat → List Token → List (String × Value) → Prop
  | list {t n opening ts closing sets} : opening.kind = .parenOpen →
      MarkerType.DerivesEntries t n ts sets → closing.kind = .parenClose →
      MarkerType.DerivesAttributes t n (opening :: (ts ++ [closing])) sets

inductive MarkerType.DerivesEntries :
    MarkerType → Nat → List Token → List (String × Value) → Prop
  | nil {t n} : MarkerType.DerivesEntries t n [] []
  | comma {t n comma ts sets} : comma.kind = .comma → MarkerType.DerivesEntries t n ts sets →
      MarkerType.DerivesEntries t n (comma :: ts) sets
  | entry {t n key s equals us v ts sets} : key.kind = .name → t.shape? key.text = some s →
      equals.kind = .equals → Shape.Derives s n us v → MarkerType.DerivesEntries t n ts sets →
      MarkerType.DerivesEntries t n (key :: equals :: (us ++ ts)) ((key.text, v) :: sets)

end

@[simp] theorem Table.writeAll_nil (t : Table) : t.writeAll [] = t := rfl

@[simp] theorem Table.writeAll_cons (t : Table) (item : Option Key × Value)
    (items : List (Option Key × Value)) :
    t.writeAll (item :: items) = (t.write item).writeAll items := rfl

@[simp] theorem Marker.setAll_nil (m : Marker) : m.setAll [] = .ok m := rfl

theorem Marker.setAll_cons_eq_ok_iff (m m' : Marker) (k : String) (v : Value)
    (sets : List (String × Value)) :
    m.setAll ((k, v) :: sets) = .ok m' ↔ ∃ n, m.set k v = .ok n ∧ n.setAll sets = .ok m' := by
  unfold setAll
  cases h : m.set k v with
  | error r => simp [h, bind, Except.bind]
  | ok n => simp [h, bind, Except.bind]

@[simp] theorem Marker.type_fresh (t : MarkerType) : (Marker.fresh t).type = t := rfl

theorem Marker.type_of_set {m n : Marker} {k : String} {v : Value} (h : m.set k v = .ok n) :
    n.type = m.type := by
  rw [((set_eq_ok_iff m n k v).1 h).2]

end DocMarks
