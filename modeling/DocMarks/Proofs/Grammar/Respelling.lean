import DocMarks.Proofs.Conformance
import DocMarks.Proofs.Grammar.Completeness
import DocMarks.Proofs.Lockstep
import DocMarks.Proofs.Text.Wrapping

namespace DocMarks

open Rule Token

namespace Token

structure Quotes (t u : Token) : Prop where
  name : t.kind = .name
  bare : Kind.name.Lexes t.text
  string : u.kind = .string
  text : u.text = "\"" ++ t.text ++ "\""

inductive CommaChange : List Token → List Token → Prop
  | added {comma} : comma.kind = .comma → CommaChange [] [comma]
  | removed {comma} : comma.kind = .comma → CommaChange [comma] []

inductive TagChange (name : String) : List Token → List Token → Prop
  | added {sign tag} : sign.kind = .atSign → tag.name? = some name → TagChange name [] [sign, tag]
  | removed {sign tag} : sign.kind = .atSign → tag.name? = some name → TagChange name [sign, tag] []

end Token

mutual

inductive Shape.Respelled : Shape → Nat → List Token → List Token → Prop
  | quotes {kind n t u v} : t.Quotes u → Shape.Derives (.scalar kind) n [t] v →
      Shape.Respelled (.scalar kind) n [t] [u]
  | table {s n opening before ts us after closing i j} : opening.kind = .braceOpen →
      Shape.DerivesItems s n before i → Shape.RespelledItem s n ts us →
      Shape.DerivesItems s n after j → closing.kind = .braceClose →
      Shape.Respelled (.tableOf s) (n + 1) (opening :: (before ++ (ts ++ after) ++ [closing]))
        (opening :: (before ++ (us ++ after) ++ [closing]))
  | tag {t n xs ys ts sets} : TagChange t.name xs ys →
      MarkerType.DerivesAttributes t n ts sets →
      Shape.Respelled (.marker t) (n + 1) (xs ++ ts) (ys ++ ts)
  | untagged {t n ts us} : MarkerType.RespelledAttributes t n ts us →
      Shape.Respelled (.marker t) (n + 1) ts us
  | tagged {t n sign tag ts us} : sign.kind = .atSign → tag.name? = some t.name →
      MarkerType.RespelledAttributes t n ts us →
      Shape.Respelled (.marker t) (n + 1) (sign :: tag :: ts) (sign :: tag :: us)

/-- One change of spelling at an item of a table, or a comma at the boundary of one. -/
inductive Shape.RespelledItem : Shape → Nat → List Token → List Token → Prop
  | comma {s n ts us} : CommaChange ts us → Shape.RespelledItem s n ts us
  | key {s n key key' colon us v} : key.Quotes key' → colon.kind = .colon →
      Shape.Derives s n us v → Shape.RespelledItem s n (key :: colon :: us) (key' :: colon :: us)
  | keyed {s n key l colon ts us} : literalOf key = .ok l → colon.kind = .colon →
      Shape.Respelled s n ts us → Shape.RespelledItem s n (key :: colon :: ts) (key :: colon :: us)
  | pushed {s n ts us} : Shape.Respelled s n ts us → Shape.RespelledItem s n ts us

inductive MarkerType.RespelledAttributes : MarkerType → Nat → List Token → List Token → Prop
  | list {t n opening before ts us after closing i j} : opening.kind = .parenOpen →
      MarkerType.DerivesEntries t n before i → MarkerType.RespelledEntry t n ts us →
      MarkerType.DerivesEntries t n after j → closing.kind = .parenClose →
      MarkerType.RespelledAttributes t n (opening :: (before ++ (ts ++ after) ++ [closing]))
        (opening :: (before ++ (us ++ after) ++ [closing]))

inductive MarkerType.RespelledEntry : MarkerType → Nat → List Token → List Token → Prop
  | comma {t n ts us} : CommaChange ts us → MarkerType.RespelledEntry t n ts us
  | value {t n key s equals ts us} : key.kind = .name → t.shape? key.text = some s →
      equals.kind = .equals → Shape.Respelled s n ts us →
      MarkerType.RespelledEntry t n (key :: equals :: ts) (key :: equals :: us)

end

theorem Token.Quotes.literalOf_eq {t u : Token} (h : t.Quotes u) :
    literalOf t = .ok (.string t.text) ∧ literalOf u = .ok (.string t.text) := by
  obtain ⟨c, cs, text, -, lexed⟩ := Kind.lexes_iff.1 h.bare
  obtain ⟨start, -, taken⟩ := lexeme_eq_name_iff.1 lexed
  have word : ∀ d ∈ c :: cs, isNameRest d := by
    rw [List.forall_mem_cons]
    exact ⟨by simp [isNameRest, start], List.all_eq_true.1 (taken ▸ List.all_takeWhile)⟩
  have plain : Text.Quoted.Plain t.text.toList := by
    rw [Text.Quoted.Plain, text,
      Text.splitOn_of_not_mem fun newline => absurd (word _ newline) (by decide)]
    exact List.forall_mem_nil _
  have quoted : u.text.toList = Text.Quoted.encode t.text.toList := by
    rw [h.text, Text.Quoted.encode, text,
      Text.Quoted.double_of_not_mem fun quote => absurd (word _ quote) (by decide)]
    simp [text]
  constructor
  · rw [literalOf, h.name]
  · rw [literalOf, h.string]
    simp only [unquote, quoted, Text.Quoted.decode_encode plain, String.ofList_toList]

theorem Literal.coerce_string {s text : String} {kind : ScalarKind} {v : Value}
    (h : (Literal.string s).coerce text kind = .ok v) (text' : String) :
    (Literal.string s).coerce text' kind = .ok v := by
  cases kind with
  | string => exact h
  | mixed => exact h
  | integer => cases h
  | float => cases h
  | bool => cases h

theorem Shape.DerivesItems.append {s : Shape} {n : Nat} {ts us : List Token}
    {i j : List (Option Key × Value)} :
    s.DerivesItems n ts i → s.DerivesItems n us j → s.DerivesItems n (ts ++ us) (i ++ j)
  | .nil, after => after
  | .comma kind rest, after => .comma kind (rest.append after)
  | .keyed key colon value rest, after => by
    simpa using Shape.DerivesItems.keyed key colon value (rest.append after)
  | .pushed value rest, after => by
    simpa using Shape.DerivesItems.pushed value (rest.append after)

theorem MarkerType.DerivesEntries.append {t : MarkerType} {n : Nat} {ts us : List Token}
    {i j : List (String × Value)} :
    t.DerivesEntries n ts i → t.DerivesEntries n us j → t.DerivesEntries n (ts ++ us) (i ++ j)
  | .nil, after => after
  | .comma kind rest, after => .comma kind (rest.append after)
  | .entry key shape equals value rest, after => by
    simpa using MarkerType.DerivesEntries.entry key shape equals value (rest.append after)

theorem Shape.DerivesItems.of_pushed {s : Shape} {n : Nat} {ts : List Token} {v : Value}
    (value : s.Derives n ts v) : s.DerivesItems n ts [(none, v)] := by
  simpa using Shape.DerivesItems.pushed value .nil

theorem Shape.DerivesItems.of_keyed {s : Shape} {n : Nat} {key colon : Token} {ts : List Token}
    {l : Literal} {v : Value} (literal : literalOf key = .ok l) (kind : colon.kind = .colon)
    (value : s.Derives n ts v) : s.DerivesItems n (key :: colon :: ts) [(some l.toKey, v)] := by
  simpa using Shape.DerivesItems.keyed literal kind value .nil

theorem MarkerType.DerivesEntries.of_entry {t : MarkerType} {n : Nat} {key equals : Token}
    {s : Shape} {ts : List Token} {v : Value} (name : key.kind = .name)
    (shape : t.shape? key.text = some s) (kind : equals.kind = .equals) (value : s.Derives n ts v) :
    t.DerivesEntries n (key :: equals :: ts) [(key.text, v)] := by
  simpa using MarkerType.DerivesEntries.entry name shape kind value .nil

theorem Marker.exists_setAll {sets : List (String × Value)} (m : Marker)
    (typed : ∀ e ∈ sets, ∃ s, m.type.shape? e.1 = some s ∧ s.Conforms e.2) :
    ∃ m', m.setAll sets = .ok m' := by
  induction sets generalizing m with
  | nil => exact ⟨m, rfl⟩
  | cons e sets ih =>
    rw [List.forall_mem_cons] at typed
    obtain ⟨⟨s, shape, conforms⟩, typed⟩ := typed
    have set := (m.set_eq_ok_iff _ e.1 e.2).2 ⟨⟨s, shape, conforms.admits⟩, rfl⟩
    obtain ⟨m', rest⟩ := ih ⟨m.type, Entries.put m.attributes e.1 e.2⟩ typed
    exact ⟨m', (setAll_cons_eq_ok_iff ..).2 ⟨_, set, rest⟩⟩

/-- Tokens spell at most one value of a shape. -/
theorem Shape.Derives.value_unique {s : Shape} {n : Nat} {ts : List Token} {v w : Value}
    (first : s.Derives n ts v) (second : s.Derives n ts w) : v = w := by
  obtain ⟨t, us, rfl, -⟩ := first.head
  let c : Cursor := ⟨[], t, us ++ [.finishAt 0]⟩
  obtain ⟨d, passes, -⟩ : ∃ d, c.Passes (t :: us) d ∧ d.upcoming = [.finishAt 0] :=
    Cursor.exists_passes rfl (by simp)
  have read := (first.reaches ⟨"", ""⟩ ⟨n, n⟩ passes).ok_of_le (Nat.le_refl n)
  rw [(second.reaches ⟨"", ""⟩ ⟨n, n⟩ passes).ok_of_le (Nat.le_refl n)] at read
  cases read
  rfl

-- a change deeper inside has a lower `n`, and at the same depth a list comes before its items and
-- an item before its value
mutual

theorem Shape.Respelled.derives {s : Shape} {n : Nat} {ts us : List Token} :
    s.Respelled n ts us → ∃ v, s.Derives n ts v ∧ s.Derives n us v
  | .quotes quotes derived => by
    cases derived with
    | scalar literal coerced =>
      obtain ⟨bare, quoted⟩ := quotes.literalOf_eq
      rw [bare] at literal
      cases literal
      exact ⟨_, .scalar bare coerced, .scalar quoted (Literal.coerce_string coerced _)⟩
  | .table opening before item after closing => by
    obtain ⟨items, old, new⟩ := item.derives
    exact ⟨_, .table opening (.append before (.append old after)) closing,
      .table opening (.append before (.append new after)) closing⟩
  | @Shape.Respelled.tag t _ xs ys ts sets change derived => by
    obtain ⟨m, set⟩ := (Marker.fresh t).exists_setAll derived.conforms
    refine ⟨.marker m, ?_⟩
    cases change with
    | added sign tag => exact ⟨.untagged derived set, .tagged sign tag derived set⟩
    | removed sign tag => exact ⟨.tagged sign tag derived set, .untagged derived set⟩
  | @Shape.Respelled.untagged t _ _ _ list => by
    obtain ⟨sets, old, new⟩ := list.derives
    obtain ⟨m, set⟩ := (Marker.fresh t).exists_setAll old.conforms
    exact ⟨.marker m, .untagged old set, .untagged new set⟩
  | @Shape.Respelled.tagged t _ _ _ _ _ sign tag list => by
    obtain ⟨sets, old, new⟩ := list.derives
    obtain ⟨m, set⟩ := (Marker.fresh t).exists_setAll old.conforms
    exact ⟨.marker m, .tagged sign tag old set, .tagged sign tag new set⟩
termination_by (n, 0)

theorem Shape.RespelledItem.derives {s : Shape} {n : Nat} {ts us : List Token} :
    s.RespelledItem n ts us → ∃ items, s.DerivesItems n ts items ∧ s.DerivesItems n us items
  | .comma change => by
    refine ⟨[], ?_⟩
    cases change with
    | added comma => exact ⟨.nil, .comma comma .nil⟩
    | removed comma => exact ⟨.comma comma .nil, .nil⟩
  | .key quotes colon derived => by
    obtain ⟨bare, quoted⟩ := quotes.literalOf_eq
    exact ⟨_, .of_keyed bare colon derived, .of_keyed quoted colon derived⟩
  | .keyed key colon value => by
    obtain ⟨v, old, new⟩ := value.derives
    exact ⟨_, .of_keyed key colon old, .of_keyed key colon new⟩
  | .pushed value => by
    obtain ⟨v, old, new⟩ := value.derives
    exact ⟨_, .of_pushed old, .of_pushed new⟩
termination_by (n, 1)

theorem MarkerType.RespelledAttributes.derives {t : MarkerType} {n : Nat} {ts us : List Token} :
    t.RespelledAttributes n ts us →
      ∃ sets, t.DerivesAttributes n ts sets ∧ t.DerivesAttributes n us sets
  | .list opening before entry after closing => by
    obtain ⟨sets, old, new⟩ := entry.derives
    exact ⟨_, .list opening (.append before (.append old after)) closing,
      .list opening (.append before (.append new after)) closing⟩
termination_by (n, 2)

theorem MarkerType.RespelledEntry.derives {t : MarkerType} {n : Nat} {ts us : List Token} :
    t.RespelledEntry n ts us →
      ∃ sets, t.DerivesEntries n ts sets ∧ t.DerivesEntries n us sets
  | .comma change => by
    refine ⟨[], ?_⟩
    cases change with
    | added comma => exact ⟨.nil, .comma comma .nil⟩
    | removed comma => exact ⟨.comma comma .nil, .nil⟩
  | .value key shape equals value => by
    obtain ⟨v, old, new⟩ := value.derives
    exact ⟨_, .of_entry key shape equals old, .of_entry key shape equals new⟩
termination_by (n, 1)

end

def Token.spelling (t : Token) : Token.Kind × String := (t.kind, t.text)

def Token.Pairing.spelling : Token.Pairing where
  pairs t u := t.spelling = u.spelling
  kind_eq h := congrArg Prod.fst h
  text_eq h := congrArg Prod.snd h

namespace Token

variable {t : Token} {ts us vs : List Token}

theorem literalOf_of_spelling {u : Token} {l : Literal} (same : u.spelling = t.spelling)
    (h : literalOf t = .ok l) : literalOf u = .ok l := by
  have agree := literalOf_agree (P := .spelling) same
  rw [h] at agree
  generalize literalOf u = read at agree ⊢
  cases agree with
  | ok same => rw [same]

theorem map_spelling_eq_cons (h : us.map spelling = (t :: ts).map spelling) :
    ∃ u us', us = u :: us' ∧ u.spelling = t.spelling ∧ us'.map spelling = ts.map spelling :=
  List.map_eq_cons_iff.1 h

theorem map_spelling_eq_append (h : us.map spelling = (ts ++ vs).map spelling) :
    ∃ us' us'', us = us' ++ us'' ∧ us'.map spelling = ts.map spelling ∧
      us''.map spelling = vs.map spelling := by
  rw [List.map_append] at h
  exact List.map_eq_append_iff.1 h

end Token

mutual

theorem Shape.Derives.of_spelling {s : Shape} {n : Nat} {ts us : List Token} {v : Value} :
    s.Derives n ts v → us.map spelling = ts.map spelling → s.Derives n us v
  | .scalar hl hv, same => by
    obtain ⟨u, _, rfl, single, rest⟩ := map_spelling_eq_cons same
    obtain rfl := List.map_eq_nil_iff.1 rest
    rw [← Pairing.spelling.text_eq single] at hv
    exact .scalar (literalOf_of_spelling single hl) hv
  | .table hk items hc, same => by
    obtain ⟨u, _, rfl, opening, rest⟩ := map_spelling_eq_cons same
    obtain ⟨us, _, rfl, inside, rest⟩ := map_spelling_eq_append rest
    obtain ⟨w, _, rfl, closing, rest⟩ := map_spelling_eq_cons rest
    obtain rfl := List.map_eq_nil_iff.1 rest
    exact .table ((Pairing.spelling.kind_eq opening).trans hk) (items.of_spelling inside)
      ((Pairing.spelling.kind_eq closing).trans hc)
  | .untagged h hm, same => .untagged (h.of_spelling same) hm
  | .tagged hsign hname h hm, same => by
    obtain ⟨u, _, rfl, sign, rest⟩ := map_spelling_eq_cons same
    obtain ⟨w, us, rfl, tag, rest⟩ := map_spelling_eq_cons rest
    exact .tagged ((Pairing.spelling.kind_eq sign).trans hsign)
      ((Pairing.name?_eq (P := .spelling) tag).trans hname) (h.of_spelling rest) hm

theorem Shape.DerivesItems.of_spelling {s : Shape} {n : Nat} {ts us : List Token}
    {items : List (Option Key × Value)} : s.DerivesItems n ts items →
      us.map spelling = ts.map spelling → s.DerivesItems n us items
  | .nil, same => by
    rw [List.map_eq_nil_iff.1 same]
    exact .nil
  | .comma hk h, same => by
    obtain ⟨u, us, rfl, comma, rest⟩ := map_spelling_eq_cons same
    exact .comma ((Pairing.spelling.kind_eq comma).trans hk) (h.of_spelling rest)
  | .keyed hl hcolon hv h, same => by
    obtain ⟨u, _, rfl, key, rest⟩ := map_spelling_eq_cons same
    obtain ⟨w, _, rfl, colon, rest⟩ := map_spelling_eq_cons rest
    obtain ⟨us, us', rfl, value, rest⟩ := map_spelling_eq_append rest
    exact .keyed (literalOf_of_spelling key hl) ((Pairing.spelling.kind_eq colon).trans hcolon)
      (hv.of_spelling value) (h.of_spelling rest)
  | .pushed hv h, same => by
    obtain ⟨us, us', rfl, value, rest⟩ := map_spelling_eq_append same
    exact .pushed (hv.of_spelling value) (h.of_spelling rest)

theorem MarkerType.DerivesAttributes.of_spelling {t : MarkerType} {n : Nat} {ts us : List Token}
    {sets : List (String × Value)} : t.DerivesAttributes n ts sets →
      us.map spelling = ts.map spelling → t.DerivesAttributes n us sets
  | .list hk h hc, same => by
    obtain ⟨u, _, rfl, opening, rest⟩ := map_spelling_eq_cons same
    obtain ⟨us, _, rfl, inside, rest⟩ := map_spelling_eq_append rest
    obtain ⟨w, _, rfl, closing, rest⟩ := map_spelling_eq_cons rest
    obtain rfl := List.map_eq_nil_iff.1 rest
    exact .list ((Pairing.spelling.kind_eq opening).trans hk) (h.of_spelling inside)
      ((Pairing.spelling.kind_eq closing).trans hc)

theorem MarkerType.DerivesEntries.of_spelling {t : MarkerType} {n : Nat} {ts us : List Token}
    {sets : List (String × Value)} : t.DerivesEntries n ts sets →
      us.map spelling = ts.map spelling → t.DerivesEntries n us sets
  | .nil, same => by
    rw [List.map_eq_nil_iff.1 same]
    exact .nil
  | .comma hk h, same => by
    obtain ⟨u, us, rfl, comma, rest⟩ := map_spelling_eq_cons same
    exact .comma ((Pairing.spelling.kind_eq comma).trans hk) (h.of_spelling rest)
  | .entry hk hs hequals hv h, same => by
    obtain ⟨u, _, rfl, key, rest⟩ := map_spelling_eq_cons same
    obtain ⟨w, _, rfl, equals, rest⟩ := map_spelling_eq_cons rest
    obtain ⟨us, us', rfl, value, rest⟩ := map_spelling_eq_append rest
    rw [← Pairing.spelling.text_eq key] at hs ⊢
    exact .entry ((Pairing.spelling.kind_eq key).trans hk) hs
      ((Pairing.spelling.kind_eq equals).trans hequals) (hv.of_spelling value) (h.of_spelling rest)

end

theorem MarkerType.RespelledAttributes.derives_marker {t : MarkerType} {n : Nat}
    {ts us : List Token} {sets : List (String × Value)} {m : Marker}
    (h : t.RespelledAttributes n ts us) (derived : t.DerivesAttributes n ts sets)
    (set : (Marker.fresh t).setAll sets = .ok m) :
    ∃ sets', t.DerivesAttributes n us sets' ∧ (Marker.fresh t).setAll sets' = .ok m := by
  obtain ⟨sets', old, new⟩ := h.derives
  obtain ⟨m', set'⟩ := (Marker.fresh t).exists_setAll old.conforms
  have same := Shape.Derives.value_unique (.untagged derived set) (.untagged old set')
  cases same
  exact ⟨sets', new, set'⟩

theorem MarkerType.RespelledAttributes.getLast?_eq {t : MarkerType} {n : Nat} {ts us : List Token}
    (h : t.RespelledAttributes n ts us) : us.getLast? = ts.getLast? := by
  cases h with
  | list _ _ _ _ _ => simp [List.getLast?_cons]

end DocMarks
