import DocMarks.Dialect
import DocMarks.Proofs.Grammar.Completeness
import DocMarks.Proofs.Token.Spelling
import DocMarks.Proofs.Value.Writable

namespace DocMarks

open Token

def Literal.Spelled (l : Literal) (text : String) : Prop :=
  Spells text.toList fun ts => ∃ t, ts = [t] ∧ Rule.literalOf t = .ok l

theorem Literal.spelled_of_single {l : Literal} {kind : Kind} {text : String}
    (h : Spells text.toList (Single kind text))
    (reads : ∀ span, Rule.literalOf ⟨kind, text, span⟩ = .ok l) : l.Spelled text := by
  apply h.imp
  rintro ts ⟨span, rfl⟩
  exact ⟨_, rfl, reads span⟩

theorem Literal.spelled_null : Literal.null.Spelled "null" :=
  spelled_of_single (spells_word rfl rfl) fun _ => rfl

theorem Literal.spelled_bool (b : Bool) :
    (Literal.bool b).Spelled (if b then "true" else "false") := by
  cases b with
  | false => exact spelled_of_single (spells_word rfl rfl) fun _ => rfl
  | true => exact spelled_of_single (spells_word rfl rfl) fun _ => rfl

theorem Literal.spelled_int (i : Int64) : (Literal.int i).Spelled (toString i.toInt) := by
  apply spelled_of_single (spells_integer i.toInt)
  intro span
  simp only [Rule.literalOf, Numeral.int64?_toString]

theorem Literal.spelled_string {s : String} (plain : Text.Quoted.Plain s.toList) :
    (Literal.string s).Spelled (Value.quote s) := by
  apply spelled_of_single
  · rw [Value.quote, String.toList_ofList]
    exact spells_quoted s.toList
  · intro span
    simp only [Rule.literalOf, unquote, Value.quote, String.toList_ofList,
      Text.Quoted.decode_encode plain, String.ofList_toList]

theorem Literal.coerce_of_conforms {l : Literal} {kind : ScalarKind} (text : String)
    (h : (Shape.scalar kind).Conforms l.toValue) : l.coerce text kind = .ok l.toValue := by
  cases l <;> cases h <;> rfl

theorem Literal.Spelled.derives {l : Literal} {text : String} {s : Shape} (n : Nat)
    (spelled : l.Spelled text) (conforms : s.Conforms l.toValue) :
    Spells text.toList (s.Derives n · l.toValue) := by
  apply spelled.imp
  rintro ts ⟨t, rfl, read⟩
  cases s with
  | scalar kind => exact .scalar read (coerce_of_conforms t.text conforms)
  | marker t => cases l <;> cases conforms
  | tableOf s => cases l <;> cases conforms

theorem Key.spelled {k : Key} (writable : k.Writable) :
    ∃ l : Literal, l.toKey = k ∧ l.Spelled k.render := by
  cases k with
  | int i => exact ⟨.int i, rfl, Literal.spelled_int i⟩
  | string s => exact ⟨.string s, rfl, Literal.spelled_string writable⟩

def Value.renderItem : Option Key × Value → String
  | (some k, v) => k.render ++ ": " ++ v.render
  | (none, v) => v.render

def Value.renderAttribute (e : String × Value) : String := e.1 ++ "=" ++ e.2.render

theorem Value.renderItems_eq (es : List (Key × Value)) :
    Value.renderItems es = (Table.unkeyed es).map Value.renderItem := by
  rw [Table.unkeyed, List.map_map]
  exact eq_map_of_cons rfl (fun _ _ => rfl) es

theorem Value.renderEntries_eq (es : List (Key × Value)) :
    Value.renderEntries es = (Table.keyed es).map Value.renderItem := by
  rw [Table.keyed, List.map_map]
  exact eq_map_of_cons rfl (fun _ _ => rfl) es

theorem Value.renderAttributes_eq (es : List (String × Value)) :
    Value.renderAttributes es = es.map Value.renderAttribute :=
  eq_map_of_cons rfl (fun _ _ => rfl) es

theorem Table.toList_render (t : Table) :
    t.render.toList =
      '\x7b' :: ((String.intercalate ", " (t.items.map Value.renderItem)).toList ++ ['\x7d']) := by
  obtain ⟨entries, next⟩ := t
  rw [Table.render, Table.items]
  simp only [Value.renderItems_eq, Value.renderEntries_eq, ← apply_ite (List.map Value.renderItem)]
  rw [String.toList_append, String.toList_append]
  rfl

theorem Marker.toList_render (m : Marker) :
    m.render.toList = '@' :: (m.type.name.toList ++ '(' ::
      ((String.intercalate ", " (m.attributes.map Value.renderAttribute)).toList ++ [')'])) := by
  obtain ⟨type, attributes⟩ := m
  rw [Marker.render, Value.renderAttributes_eq]
  simp [String.toList_append]

section

variable {s : Shape} {n : Nat} {v : Value}

theorem Shape.spells_item {k? : Option Key} (key : ∀ k ∈ k?, k.Writable)
    (value : Spells v.render.toList (s.Derives n · v)) :
    Spells (Value.renderItem (k?, v)).toList fun ts =>
      ∀ us items, s.DerivesItems n us items → s.DerivesItems n (ts ++ us) ((k?, v) :: items) := by
  cases k? with
  | none => exact value.imp fun ts derived us items rest => .pushed derived rest
  | some k =>
    obtain ⟨l, rfl, spelled⟩ := Key.spelled (key k rfl)
    have colon := (value.gap (c := ' ') rfl).mark (c := ':') rfl
      (Q := fun ts => ∃ colon us, ts = colon :: us ∧ colon.kind = .colon ∧ s.Derives n us v)
      fun t ts ht derived => ⟨t, ts, rfl, ht, derived⟩
    rw [Value.renderItem, String.toList_append, String.toList_append, List.append_assoc]
    apply spelled.append (c := ':') rfl colon
    rintro _ _ ⟨key, rfl, read⟩ ⟨colon, us, rfl, hc, derived⟩ ts items rest
    simpa using Shape.DerivesItems.keyed read hc derived rest

theorem MarkerType.spells_attribute {t : MarkerType} {key : String} (name : Kind.name.Lexes key)
    (shape : t.shape? key = some s) (value : Spells v.render.toList (s.Derives n · v)) :
    Spells (Value.renderAttribute (key, v)).toList fun ts =>
      ∀ us sets, t.DerivesEntries n us sets → t.DerivesEntries n (ts ++ us) ((key, v) :: sets) := by
  have equals := value.mark (c := '=') rfl
    (Q := fun ts => ∃ equals us, ts = equals :: us ∧ equals.kind = .equals ∧ s.Derives n us v)
    fun t ts ht derived => ⟨t, ts, rfl, ht, derived⟩
  rw [Value.renderAttribute, String.toList_append, String.toList_append, List.append_assoc]
  apply (spells_name name).append (c := '=') rfl equals
  rintro _ _ ⟨span, rfl⟩ ⟨equals, us, rfl, he, derived⟩ ts sets rest
  have kind : (⟨.name, key, span⟩ : Token).kind = .name := rfl
  simpa using MarkerType.DerivesEntries.entry kind shape he derived rest

theorem spells_bracketed {cs : List Char} {P Q : List Token → Prop} {openKind closeKind : Kind}
    (opening closing : Char) (inside : Spells cs P) (opens : punctuation? opening = some openKind)
    (closes : punctuation? closing = some closeKind) (delimiter : isDelimiter closing)
    (join : ∀ t ts u, t.kind = openKind → P ts → u.kind = closeKind → Q (t :: (ts ++ [u]))) :
    Spells (opening :: (cs ++ [closing])) Q := by
  have close : Spells [closing] fun ts => ∃ u, ts = [u] ∧ u.kind = closeKind :=
    spells_mark closes fun u hu => ⟨u, rfl, hu⟩
  have closed := inside.append delimiter close
    (R := fun ts => ∃ us u, ts = us ++ [u] ∧ P us ∧ u.kind = closeKind)
    (by rintro us _ hus ⟨u, rfl, hu⟩; exact ⟨us, u, rfl, hus, hu⟩)
  apply closed.mark opens
  rintro t _ ht ⟨us, u, rfl, hus, hu⟩
  exact join t us u ht hus hu

theorem Table.spells {t : Table} (built : t.Built) (keys : ∀ e ∈ t.entries, e.1.Writable)
    (values : ∀ e ∈ t.entries, Spells e.2.render.toList (s.Derives n · e.2)) :
    Spells t.render.toList ((Shape.tableOf s).Derives (n + 1) · (.table t)) := by
  have items : ∀ i ∈ t.items, Spells (Value.renderItem i).toList fun ts =>
      ∀ us items, s.DerivesItems n us items → s.DerivesItems n (ts ++ us) (i :: items) := by
    intro i hi
    rw [Table.items] at hi
    split at hi
    case isTrue =>
      obtain ⟨e, he, rfl⟩ := List.mem_map.1 hi
      exact Shape.spells_item (by simp) (values e he)
    case isFalse =>
      obtain ⟨e, he, rfl⟩ := List.mem_map.1 hi
      apply Shape.spells_item ?_ (values e he)
      intro k hk
      cases hk
      exact keys e he
  rw [Table.toList_render]
  have joined := spells_joined .nil (fun _ _ _ => .comma) Value.renderItem t.items items
  apply spells_bracketed _ _ joined rfl rfl rfl
  intro opening ts closing hopen derived hclose
  have table := Shape.Derives.table hopen derived hclose
  rwa [built.writeAll_items] at table

theorem Marker.spells {m : Marker} (name : Kind.name.Lexes m.type.name)
    (names : ∀ e ∈ m.attributes, Kind.name.Lexes e.1) (typed : m.WellTyped)
    (values : ∀ e ∈ m.attributes, ∀ s : Shape, s.Conforms e.2 →
      Spells e.2.render.toList (s.Derives n · e.2)) :
    Spells m.render.toList fun ts => ∃ sign tag us, ts = sign :: tag :: us ∧
      sign.kind = .atSign ∧ tag.name? = some m.type.name ∧
      m.type.DerivesAttributes n us m.attributes := by
  have entries : ∀ e ∈ m.attributes, Spells (Value.renderAttribute e).toList fun ts =>
      ∀ us sets, m.type.DerivesEntries n us sets →
        m.type.DerivesEntries n (ts ++ us) (e :: sets) := by
    intro e he
    obtain ⟨s, shape, conforms⟩ := typed e he
    exact MarkerType.spells_attribute (names e he) shape (values e he s conforms)
  have joined := spells_joined .nil (fun _ _ _ => .comma) Value.renderAttribute m.attributes entries
  have list := spells_bracketed '(' ')' (Q := (m.type.DerivesAttributes n · m.attributes)) joined
    rfl rfl rfl fun _ _ _ hopen derived hclose => .list hopen derived hclose
  have tagged := (spells_name name).append (c := '(') rfl list
    (R := fun ts => ∃ tag us, ts = tag :: us ∧ tag.name? = some m.type.name ∧
      m.type.DerivesAttributes n us m.attributes)
    (by rintro _ us ⟨span, rfl⟩ derived; exact ⟨_, us, rfl, rfl, derived⟩)
  rw [Marker.toList_render]
  apply tagged.mark rfl
  rintro sign _ hsign ⟨tag, us, rfl, htag, derived⟩
  exact ⟨sign, tag, us, rfl, hsign, htag, derived⟩

end

theorem Marker.setAll_fresh {m : Marker} (built : m.Built) (typed : m.WellTyped) :
    (Marker.fresh m.type).setAll m.attributes = .ok m := by
  have set := setAll_append m.attributes (fresh m.type) built.nodup fun e he => by
    obtain ⟨s, shape, conforms⟩ := typed e he
    exact ⟨s, shape, conforms.admits⟩
  cases m
  exact set

/-- The spelling of a value is cut into tokens from which the grammar derives it. -/
theorem Value.spells (v : Value) (writable : v.Writable) :
    ∀ (s : Shape) (n : Nat), s.Conforms v → v.depth ≤ n →
      Spells v.render.toList (s.Derives n · v) := by
  induction v using Value.induction with
  | null => exact fun s n conforms _ => Literal.spelled_null.derives n conforms
  | bool b => exact fun s n conforms _ => (Literal.spelled_bool b).derives n conforms
  | int i => exact fun s n conforms _ => (Literal.spelled_int i).derives n conforms
  | float x => cases writable
  | string text =>
    cases writable with
    | string plain =>
      exact fun s n conforms _ => (Literal.spelled_string plain).derives n conforms
  | table t ih =>
    intro s n conforms depth
    obtain ⟨n, rfl, depths⟩ := Table.exists_of_depth_le depth
    cases writable with
    | table built keys values =>
      cases conforms with
      | mixed scalar => cases scalar
      | table items =>
        apply Table.spells built keys
        intro e he
        exact ih e he (values e he) _ n (items e he) (depths e he)
  | marker m ih =>
    intro s n conforms depth
    obtain ⟨n, rfl, depths⟩ := Marker.exists_of_depth_le depth
    cases writable with
    | marker built name names values =>
      cases s with
      | scalar kind =>
        cases conforms with
        | mixed scalar => cases scalar
      | tableOf s => cases conforms
      | marker t =>
        obtain ⟨rfl, typed⟩ := Shape.conforms_marker_iff.1 conforms
        have attributes := Marker.spells name names typed fun e he s conforms =>
          ih e he (values e he) s n conforms (depths e he)
        apply attributes.imp
        rintro _ ⟨sign, tag, us, rfl, hsign, htag, derived⟩
        exact .tagged hsign htag derived (Marker.setAll_fresh built typed)

theorem Region.ofBody?_render (m : Marker) :
    Region.ofBody? m.render = some ⟨0, m.render.toList⟩ := by
  have ends : ∃ cs, m.render.toList = '@' :: (cs ++ [')']) := by
    rw [Marker.toList_render]
    generalize (String.intercalate ", " (m.attributes.map Value.renderAttribute)).toList = cs
    exact ⟨m.type.name.toList ++ '(' :: cs, by simp⟩
  obtain ⟨cs, text⟩ := ends
  rw [Region.ofBody?, text, Region.ofChars?, Region.openFrom?]
  simp [Text.trimEnd, show Region.isDecoration ')' = false from rfl]

theorem Rule.marker?_eq_ok_of_derives {v : Vocabulary} {a : Allowance} {c d : Cursor} {m : Marker}
    {n : Nat} {sign tag : Token} {us : List Token} (passes : c.Passes (sign :: tag :: us) d)
    (name : tag.name? = some m.type.name) (known : v.lookup? m.type.name = some m.type)
    (derived : m.type.DerivesAttributes n us m.attributes)
    (set : (Marker.fresh m.type).setAll m.attributes = .ok m) (enough : n + 1 ≤ a.left) :
    marker? v a c = .ok (some m, d) := by
  obtain ⟨-, -, rest⟩ := Cursor.passes_cons_iff.1 passes
  obtain ⟨rfl, -, rest⟩ := Cursor.passes_cons_iff.1 rest
  have opens : c.step.step.current.kind = .parenOpen := by
    cases derived with
    | list hopen _ _ => rw [(Cursor.passes_cons_iff.1 rest).1, hopen]
  have read : nested (attributes m.type.rule? (.fresh m.type)) a c.step.step = .ok (m, d) :=
    (Reaches.nested fun _ => derived.reaches _ rest (Marker.type_fresh m.type) set).ok_of_le enough
  simp only [marker?, name, known, opens, if_true, read]
  rfl

theorem Rule.markers_of_isFinished {v : Vocabulary} {a : Allowance} {c : Cursor} (steps : Nat)
    (h : c.isFinished) : markers v a steps c = .ok [] := by
  cases steps with
  | zero => rfl
  | succ steps => rw [markers, if_pos h]

theorem Rule.markers_marker {v : Vocabulary} {a : Allowance} {c d : Cursor} {m : Marker}
    {ms : List Marker} {steps : Nat} (sign : c.current.kind = .atSign) (free : c.isGlued = false)
    (first : marker? v a c = .ok (some m, d)) (rest : markers v a steps d = .ok ms) :
    markers v a (steps + 1) c = .ok (m :: ms) := by
  simp only [markers, Cursor.isFinished, sign, free, first]
  change (markers v a steps d >>= fun ms => pure (m :: ms)) = _
  rw [rest]
  rfl

theorem Dialect.markersOf_eq_ok_of_derives {d : Dialect} {m : Marker} {n p : Nat} {sign tag : Token}
    {us : List Token} (hsign : sign.kind = .atSign) (name : tag.name? = some m.type.name)
    (known : d.vocabulary.lookup? m.type.name = some m.type)
    (derived : m.type.DerivesAttributes n us m.attributes)
    (set : (Marker.fresh m.type).setAll m.attributes = .ok m) (enough : n + 1 ≤ d.limits.maxDepth) :
    d.markersOf (sign :: tag :: us ++ [finishAt p]) = .ok [m] := by
  have start : Cursor.ofTokens (sign :: tag :: us ++ [finishAt p]) =
      ⟨[], sign, tag :: us ++ [finishAt p]⟩ := by
    rw [Cursor.ofTokens, Cursor.finished, List.getLast?_concat]
    rfl
  have passes : Cursor.Passes ⟨[], sign, tag :: us ++ [finishAt p]⟩ (sign :: tag :: us)
      ⟨(sign :: tag :: us).reverse, finishAt p, []⟩ := ⟨by simp, rfl⟩
  have read := Rule.marker?_eq_ok_of_derives (a := d.allowance) passes name known derived set enough
  rw [markersOf, start]
  exact Rule.markers_marker hsign rfl read (Rule.markers_of_isFinished _ rfl)

/-- A marker is read back from its spelling. -/
theorem Dialect.read_render (d : Dialect) (m : Marker)
    (known : d.vocabulary.lookup? m.name = some m.type) (typed : m.WellTyped)
    (writable : (Value.marker m).Writable) (depth : m.depth ≤ d.limits.maxDepth) :
    d.read m.render = .ok ⟨[(m.name, .once m)]⟩ := by
  obtain ⟨n, limit, depths⟩ := Marker.exists_of_depth_le depth
  cases writable with
  | marker built name names values =>
    have spells := Marker.spells name names typed fun e he s conforms =>
      Value.spells e.2 (values e he) s n conforms (depths e he)
    obtain ⟨_, cut, sign, tag, us, rfl, hsign, htag, derived⟩ := spells 0 [] delimited_nil
    have nonempty : d.vocabulary.isEmpty = false := by
      have mem := ((d.vocabulary.lookup?_eq_some_iff ..).1 known).1
      exact List.isEmpty_eq_false_iff.2 (List.ne_nil_of_mem mem)
    have markers : d.markers m.render = .ok [m] := by
      rw [List.append_nil, scan_nil] at cut
      rw [Dialect.markers, nonempty, if_neg Bool.false_ne_true, Region.ofBody?_render]
      simp only [cut]
      rw [markersOf_eq_ok_of_derives hsign htag known derived (Marker.setAll_fresh built typed)
        (Nat.le_of_eq limit.symm)]
      rfl
    rw [Dialect.read, markers]
    rfl

theorem Dialect.read_render_nested :
    ∃ (d : Dialect) (m : Marker), m.render = "@p(k=\x7b-3: @q(b=\"a\"\"\nb\")\x7d)" ∧
      d.read m.render = .ok ⟨[("p", .once m)]⟩ := by
  let q : MarkerType := ⟨"q", [("b", .scalar .string)]⟩
  let p : MarkerType := ⟨"p", [("k", .tableOf (.marker q))]⟩
  let inner : Marker := ⟨q, [("b", .string "a\"\nb")]⟩
  let t : Table := Table.insert {} (.int (-3)) (.marker inner)
  let m : Marker := ⟨p, [("k", .table t)]⟩
  have conforms : (Shape.marker q).Conforms (.marker inner) :=
    Shape.conforms_marker_iff.2 ⟨rfl, List.forall_mem_singleton.2 ⟨_, rfl, .string _⟩⟩
  have typed : m.WellTyped :=
    List.forall_mem_singleton.2 ⟨_, rfl, .table (List.forall_mem_singleton.2 conforms)⟩
  have names : Kind.name.Lexes "p" ∧ Kind.name.Lexes "k" ∧ Kind.name.Lexes "q" ∧
      Kind.name.Lexes "b" := by
    decide
  have innerWritable : (Value.marker inner).Writable :=
    .marker (.set (.fresh q) (k := "b") (v := .string "a\"\nb") rfl) names.2.2.1
      (List.forall_mem_singleton.2 names.2.2.2) (List.forall_mem_singleton.2 (.string (by decide)))
  have writable : (Value.marker m).Writable :=
    .marker (.set (.fresh p) (k := "k") (v := .table t) rfl) names.1
      (List.forall_mem_singleton.2 names.2.1) (List.forall_mem_singleton.2 (.table
        (.insert _ _ .empty) (List.forall_mem_singleton.2 trivial)
        (List.forall_mem_singleton.2 innerWritable)))
  exact ⟨⟨⟨[p], by simp⟩, ⟨3⟩⟩, m, rfl, read_render _ m rfl typed writable (by decide)⟩

end DocMarks
