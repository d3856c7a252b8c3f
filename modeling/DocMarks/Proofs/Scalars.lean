import Mathlib
import DocMarks.Proofs.Conformance
import DocMarks.Proofs.Findings
import DocMarks.Proofs.Token.Lexeme
import DocMarks.Proofs.Value.Json

namespace DocMarks

variable {P : ScalarKind → Value → Prop} {us : List Token}

inductive Shape.Scalars (P : ScalarKind → Value → Prop) : Shape → Value → Prop
  | scalar {kind : ScalarKind} {v : Value} : P kind v → Shape.Scalars P (.scalar kind) v
  | table {s : Shape} {t : Table} : (∀ e ∈ t.entries, Shape.Scalars P s e.2) →
      Shape.Scalars P (.tableOf s) (.table t)
  | marker {m : Marker} :
      (∀ e ∈ m.attributes, ∀ s, m.type.shape? e.1 = some s → Shape.Scalars P s e.2) →
      Shape.Scalars P (.marker m.type) (.marker m)

def Token.Spell (us : List Token) (kind : ScalarKind) (v : Value) : Prop :=
  ∃ t ∈ us, ∃ l, Rule.literalOf t = .ok l ∧ l.coerce t.text kind = .ok v

theorem Marker.scalars_of_setAll {t : MarkerType} {sets : List (String × Value)} {m : Marker}
    (h : (Marker.fresh t).setAll sets = .ok m)
    (scalars : ∀ e ∈ sets, ∀ s, t.shape? e.1 = some s → s.Scalars P e.2) :
    m.type = t ∧ (Shape.marker m.type).Scalars P (.marker m) := by
  obtain ⟨type, attributes⟩ := forall_setAll h (by simp [fresh]) scalars
  refine ⟨type, .marker ?_⟩
  rw [type]
  exact attributes

mutual

theorem Shape.Derives.scalars {s : Shape} {n : Nat} {ts : List Token} {v : Value} :
    s.Derives n ts v → ts ⊆ us → s.Scalars (Token.Spell us) v
  | .scalar hl hv, within => .scalar ⟨_, within (.head _), _, hl, hv⟩
  | .table _ items _, within =>
    .table (Table.forall_writeAll _ {} (fun _ h => nomatch h)
      (items.scalars fun _ ht => within (.tail _ (List.mem_append_left _ ht))))
  | .untagged h hm, within => by
    obtain ⟨rfl, scalars⟩ := Marker.scalars_of_setAll hm (h.scalars within)
    exact scalars
  | .tagged _ _ h hm, within => by
    obtain ⟨rfl, scalars⟩ := Marker.scalars_of_setAll hm
      (h.scalars fun _ ht => within (.tail _ (.tail _ ht)))
    exact scalars

theorem Shape.DerivesItems.scalars {s : Shape} {n : Nat} {ts : List Token}
    {written : List (Option Key × Value)} :
    s.DerivesItems n ts written → ts ⊆ us → ∀ i ∈ written, s.Scalars (Token.Spell us) i.2
  | .nil, _ => fun _ h => nomatch h
  | .comma _ h, within => h.scalars fun _ ht => within (.tail _ ht)
  | .keyed _ _ hv h, within => List.forall_mem_cons.2
    ⟨hv.scalars fun _ ht => within (.tail _ (.tail _ (List.mem_append_left _ ht))),
      h.scalars fun _ ht => within (.tail _ (.tail _ (List.mem_append_right _ ht)))⟩
  | .pushed hv h, within => List.forall_mem_cons.2
    ⟨hv.scalars fun _ ht => within (List.mem_append_left _ ht),
      h.scalars fun _ ht => within (List.mem_append_right _ ht)⟩

theorem MarkerType.DerivesAttributes.scalars {t : MarkerType} {n : Nat} {ts : List Token}
    {sets : List (String × Value)} :
    t.DerivesAttributes n ts sets → ts ⊆ us →
      ∀ e ∈ sets, ∀ s, t.shape? e.1 = some s → s.Scalars (Token.Spell us) e.2
  | .list _ h _, within => h.scalars fun _ ht => within (.tail _ (List.mem_append_left _ ht))

theorem MarkerType.DerivesEntries.scalars {t : MarkerType} {n : Nat} {ts : List Token}
    {sets : List (String × Value)} :
    t.DerivesEntries n ts sets → ts ⊆ us →
      ∀ e ∈ sets, ∀ s, t.shape? e.1 = some s → s.Scalars (Token.Spell us) e.2
  | .nil, _ => fun _ h => nomatch h
  | .comma _ h, within => h.scalars fun _ ht => within (.tail _ ht)
  | .entry _ hs _ hv h, within => List.forall_mem_cons.2
    ⟨fun s hs' => by
      cases hs.symm.trans hs'
      exact hv.scalars fun _ ht => within (.tail _ (.tail _ (List.mem_append_left _ ht))),
      h.scalars fun _ ht => within (.tail _ (.tail _ (List.mem_append_right _ ht)))⟩

end

theorem Rule.marker?_scalars {v : Vocabulary} {a : Allowance} {c d : Cursor} {m : Marker}
    (within : c.upcoming ⊆ us) (ends : c.Ends) (h : marker? v a c = .ok (some m, d)) :
    (Shape.marker m.type).Scalars (Token.Spell us) (.marker m) := by
  rcases marker?_eq_ok_iff.1 h with ⟨-, h, -⟩ | ⟨name, -, ⟨-, h, -⟩ | ⟨t, -, h⟩⟩
  · cases h
  · cases h
  · rcases h with ⟨-, h, -⟩ | ⟨m, -, h, hm⟩
    · cases h
      exact .marker (fun _ h => nomatch h)
    · cases h
      obtain ⟨n, -, hm⟩ := nested_eq_ok_iff.1 hm
      obtain ⟨ts, sets, passes, derived, hset⟩ := attributes_sound t.sound ends.step.step hm
      have ahead : c.Ahead c.step.step := c.ahead_step.trans c.step.ahead_step
      refine (Marker.scalars_of_setAll hset (derived.scalars ?_)).2
      intro t ht
      exact within (ahead.mem (passes.upcoming ▸ List.mem_append_left _ ht))

theorem Dialect.markers_scalars {d : Dialect} {body : String} {ms : List Marker}
    (h : d.markers body = .ok ms) :
    ∀ m ∈ ms, ∃ r, Region.ofBody? body = some r ∧
      (Shape.marker m.type).Scalars (Token.Spell (Token.scan r.start r.text)) (.marker m) := by
  refine forall_mem_markers ?_ h
  intro r c e m region ahead ends read
  refine ⟨r, region, Rule.marker?_scalars ?_ ends read⟩
  intro t ht
  rw [← Token.finished_scan, ← Cursor.upcoming_ofTokens]
  exact ahead.mem ht

/-- Where the scalars stand in the JSON of a value: itself, an item or a member of a table, or under
the attributes of a marker. -/
inductive Shape.Places (kind : ScalarKind) (leaf : Json) : Shape → Json → Prop
  | scalar : Shape.Places kind leaf (.scalar kind) leaf
  | item {s : Shape} {items : List Json} {j : Json} : j ∈ items → Shape.Places kind leaf s j →
      Shape.Places kind leaf (.tableOf s) (.list items)
  | member {s : Shape} {members : List (String × Json)} {e : String × Json} : e ∈ members →
      Shape.Places kind leaf s e.2 → Shape.Places kind leaf (.tableOf s) (.object members)
  | field {t : MarkerType} {s : Shape} {name : Json} {members : List (String × Json)}
      {e : String × Json} : e ∈ members → t.shape? e.1 = some s → Shape.Places kind leaf s e.2 →
      Shape.Places kind leaf (.marker t)
        (.object [("name", name), ("attributes", .object members)])

inductive Vocabulary.Places (v : Vocabulary) (kind : ScalarKind) (leaf : Json) : Json → Prop
  | once {members : List (String × Json)} {e : String × Json} {t : MarkerType} : e ∈ members →
      v.lookup? e.1 = some t → (Shape.marker t).Places kind leaf e.2 →
      Vocabulary.Places v kind leaf (.object members)
  | repeated {members : List (String × Json)} {name : String} {items : List Json} {j : Json}
      {t : MarkerType} : (name, .list items) ∈ members → v.lookup? name = some t → j ∈ items →
      (Shape.marker t).Places kind leaf j → Vocabulary.Places v kind leaf (.object members)

variable {kind : ScalarKind} {leaf : Json}

theorem Shape.Scalars.of_places {s : Shape} {v : Value} (h : s.Scalars P v)
    (place : s.Places kind leaf v.toJson) : ∃ w, P kind w ∧ leaf = w.toJson := by
  induction h with
  | @scalar kind v h =>
    cases place
    exact ⟨v, h, rfl⟩
  | @table s t h ih =>
    change (Shape.tableOf s).Places kind leaf t.toJson at place
    by_cases list : t.isList
    · rw [Table.toJson_of_isList list] at place
      cases place with
      | item mem place =>
        obtain ⟨e, he, rfl⟩ := List.mem_map.1 mem
        exact ih e he place
    · rw [Table.toJson_of_not_isList list] at place
      cases place with
      | member mem place =>
        obtain ⟨e, he, rfl⟩ := List.mem_map.1 mem
        exact ih e he place
  | @marker m h ih =>
    change (Shape.marker m.type).Places kind leaf m.toJson at place
    rw [Marker.toJson_eq] at place
    cases place with
    | field mem declared place =>
      obtain ⟨e, he, rfl⟩ := List.mem_map.1 mem
      exact ih e he _ declared place

theorem Findings.exists_of_places {v : Vocabulary} {ms : List Marker}
    (types : ∀ m ∈ ms, v.lookup? m.name = some m.type)
    (place : v.Places kind leaf (ofMarkers ms).toJson) :
    ∃ m ∈ ms, (Shape.marker m.type).Places kind leaf m.toJson := by
  have named := (grouped_ofMarkers ms).named
  have found := forall_ofMarkers (P := (· ∈ ms)) fun _ h => h
  have typed {e : String × Finding} {m : Marker} {t : MarkerType} (he : e ∈ (ofMarkers ms).entries)
      (hm : m ∈ e.2.markers) (known : v.lookup? e.1 = some t) : t = m.type := by
    rw [← named e he m hm, types m (found e he m hm)] at known
    exact (Option.some.inj known).symm
  rw [toJson] at place
  cases place with
  | once mem known place =>
    obtain ⟨⟨name, finding⟩, he, rfl⟩ := List.mem_map.1 mem
    cases finding with
    | once m =>
      cases typed he (.head _) known
      exact ⟨m, found _ he m (.head _), place⟩
    | repeated ns => cases place
  | repeated mem known item place =>
    obtain ⟨⟨name, finding⟩, he, same⟩ := List.mem_map.1 mem
    cases finding with
    | once m =>
      rw [Prod.mk.injEq, Finding.toJson, Marker.toJson_eq] at same
      cases same.2
    | repeated ns =>
      cases same
      obtain ⟨m, hm, rfl⟩ := List.mem_map.1 item
      cases typed he hm known
      exact ⟨m, found _ he m hm, place⟩

/-- Whatever stands in the JSON of a comment for a declared kind was read from a token as this
kind. -/
theorem Dialect.exists_of_places {d : Dialect} {body : String} {f : Findings}
    (read : d.read body = .ok f) (place : d.vocabulary.Places kind leaf f.toJson) :
    ∃ r t l v, Region.ofBody? body = some r ∧ t ∈ Token.scan r.start r.text ∧
      Rule.literalOf t = .ok l ∧ l.coerce t.text kind = .ok v ∧ leaf = v.toJson := by
  obtain ⟨ms, marked, rfl⟩ := read_eq_ok_iff.1 read
  obtain ⟨m, hm, place⟩ := Findings.exists_of_places (fun m hm => (markers_types marked m hm).1) place
  obtain ⟨r, region, scalars⟩ := markers_scalars marked m hm
  obtain ⟨v, ⟨t, ht, l, literal, value⟩, rfl⟩ := scalars.of_places place
  exact ⟨r, t, l, v, region, ht, literal, value, rfl⟩

end DocMarks
