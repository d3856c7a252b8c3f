import DocMarks.Proofs.Diagnostics
import DocMarks.Proofs.Literal
import DocMarks.Proofs.RoundTrip
import DocMarks.Proofs.Token.Append

namespace DocMarks

open Token

namespace Token

variable {kind : Kind} {text : String}

theorem inert_of_delimited {rest : List Char} (h : Delimited rest) : Inert rest := by
  intro c hc
  rcases eq_of_isDelimiter (h c hc) with rfl | rfl | rfl | rfl | rfl | rfl | rfl <;> decide

theorem spells_lexes (h : kind.Lexes text) (token : kind ≠ .stray) :
    Spells text.toList (Single kind text) := by
  obtain ⟨c, cs, ht, gap, lexed⟩ := Kind.lexes_iff.1 h
  have spells : Spells (c :: cs) (Single kind (String.ofList (c :: cs))) := by
    apply spells_single gap
    intro rest delimited
    exact lexeme_append (inert_of_delimited delimited) lexed fun h => token h.1
  rwa [← ht, String.ofList_toList] at spells

theorem Spells.cons_mark {c : Char} {cs : List Char} {P : List Token → Prop} (h : Spells cs P)
    (mark : punctuation? c = some kind) :
    Spells (c :: cs) fun ts => ∃ t us, ts = t :: us ∧ t.kind = kind ∧ P us :=
  h.mark mark fun t us ht hus => ⟨t, us, rfl, ht, hus⟩

theorem Spells.cons_single {c : Char} {cs ds : List Char} {P : List Token → Prop}
    (h : Spells cs (Single kind text)) (delimiter : isDelimiter c) (rest : Spells (c :: ds) P) :
    Spells (cs ++ c :: ds) fun ts => ∃ span us, ts = ⟨kind, text, span⟩ :: us ∧ P us :=
  h.append delimiter rest (by rintro _ us ⟨span, rfl⟩ hus; exact ⟨span, us, rfl, hus⟩)

end Token

namespace Rule

variable {c : Cursor} {a : Allowance} {l : Fault.Located}

theorem entry_eq_error {value? : String → Option (Rule Value)} {value : Rule Value} {m : Marker}
    (known : value? c.current.text = some value) (equals : c.step.current.kind = .equals)
    (fault : value a c.step.step = .error l) : entry value? m a c = .error l := by
  have read : expect .equals c.step = .ok c.step.step := expect_eq_ok_iff.2 ⟨equals, rfl⟩
  simp only [entry, known]
  exact bind_eq_error_iff.2 (.inr ⟨_, read, bind_eq_error_iff.2 (.inl fault)⟩)

theorem attributes_eq_error {value? : String → Option (Rule Value)} {m : Marker}
    (opens : c.current.kind = .parenOpen) (name : c.step.current.kind = .name)
    (fault : entry value? m a c.step = .error l) : attributes value? m a c = .error l := by
  have read : expect .parenOpen c = .ok c.step := expect_eq_ok_iff.2 ⟨opens, rfl⟩
  refine bind_eq_error_iff.2 (.inr ⟨_, read, ?_⟩)
  rw [entries_entry name]
  exact bind_eq_error_iff.2 (.inl fault)

theorem marker?_eq_error {v : Vocabulary} {type : MarkerType}
    (name : c.step.current.name? = some type.name) (known : v.lookup? type.name = some type)
    (opens : c.step.step.current.kind = .parenOpen)
    (fault : nested (attributes type.rule? (.fresh type)) a c.step.step = .error l) :
    marker? v a c = .error l := by
  simp only [marker?, name, known, opens, if_true]
  exact bind_eq_error_iff.2 (.inl fault)

end Rule

structure SoleAttribute where
  sign : Token
  tag : Token
  opening : Token
  key : Token
  equals : Token
  value : Token
  closing : Token
  sign_kind : sign.kind = .atSign
  opening_kind : opening.kind = .parenOpen
  key_kind : key.kind = .name
  equals_kind : equals.kind = .equals
  closing_kind : closing.kind = .parenClose

namespace SoleAttribute

def tokens (a : SoleAttribute) : List Token :=
  [a.sign, a.tag, a.opening, a.key, a.equals, a.value, a.closing]

def spelling (marker key text : String) : String :=
  "@" ++ marker ++ "(" ++ key ++ " = " ++ text ++ ")"

theorem toList_spelling (marker key text : String) :
    (spelling marker key text).toList =
      '@' :: (marker.toList ++ '(' :: (key.toList ++ ' ' :: '=' :: ' ' ::
        (text.toList ++ [')']))) := by
  simp [spelling, String.toList_append]

theorem spells_spelling {kind : Kind} {marker key text : String} (name : Kind.name.Lexes marker)
    (keyed : Kind.name.Lexes key) (written : kind.Lexes text) (token : kind ≠ .stray) :
    Spells (spelling marker key text).toList fun ts =>
      ∃ a : SoleAttribute, ts = a.tokens ∧ a.tag.name? = some marker ∧ a.key.text = key ∧
        a.value.kind = kind ∧ a.value.text = text := by
  have closing := (spells_nil (P := (· = [])) rfl).cons_mark (c := ')') rfl
  have value := (spells_lexes written token).cons_single rfl closing
  have equals := (value.gap (c := ' ') rfl).cons_mark (c := '=') rfl
  have entry := (spells_name keyed).cons_single (c := ' ') rfl (equals.gap rfl)
  have list := entry.cons_mark (c := '(') rfl
  have tagged := (spells_name name).cons_single rfl list
  have signed := tagged.cons_mark (c := '@') rfl
  rw [toList_spelling]
  apply signed.imp
  rintro _ ⟨sign, _, rfl, hs, tag, _, rfl, opening, _, rfl, ho, place, _, rfl, equals, _, rfl, he,
    span, _, rfl, closing, _, rfl, hc, rfl⟩
  exact ⟨⟨sign, _, opening, _, equals, _, closing, hs, ho, rfl, he, hc⟩, rfl, rfl, rfl, rfl, rfl⟩

theorem ofBody?_spelling (marker key text : String) :
    Region.ofBody? (spelling marker key text) = some ⟨0, (spelling marker key text).toList⟩ := by
  rw [Region.ofBody?, Region.ofChars?_of_head? (by rw [toList_spelling]; rfl), toList_spelling]
  simp [Text.trimEnd, show Region.isDecoration ')' = false from rfl]

variable {d : Dialect} {type : MarkerType} {kind : ScalarKind} {p : Nat}

theorem markersOf_eq_ok {l : Literal} {v : Value} (a : SoleAttribute)
    (tag : a.tag.name? = some type.name) (known : d.vocabulary.lookup? type.name = some type)
    (shape : type.shape? a.key.text = some (.scalar kind)) (depth : 1 ≤ d.limits.maxDepth)
    (read : Rule.literalOf a.value = .ok l) (coerced : l.coerce a.value.text kind = .ok v) :
    d.markersOf (a.tokens ++ [finishAt p]) = .ok [⟨type, [(a.key.text, v)]⟩] := by
  have entry : type.DerivesEntries 0 [a.key, a.equals, a.value] [(a.key.text, v)] :=
    .entry a.key_kind shape a.equals_kind (.scalar read coerced) .nil
  have set : (Marker.fresh type).set a.key.text v = .ok ⟨type, [(a.key.text, v)]⟩ :=
    (Marker.set_eq_ok_iff ..).2 ⟨⟨_, shape, (Literal.conforms_of_coerce coerced).admits⟩, rfl⟩
  exact Dialect.markersOf_eq_ok_of_derives a.sign_kind tag known
    (.list a.opening_kind entry a.closing_kind)
    ((Marker.setAll_cons_eq_ok_iff ..).2 ⟨_, set, rfl⟩) depth

theorem markersOf_eq_error {l : Fault.Located} (a : SoleAttribute)
    (tag : a.tag.name? = some type.name) (known : d.vocabulary.lookup? type.name = some type)
    (shape : type.shape? a.key.text = some (.scalar kind)) (depth : 1 ≤ d.limits.maxDepth)
    (fault : Rule.literalOf a.value = .error l) :
    d.markersOf (a.tokens ++ [finishAt p]) = .error l := by
  obtain ⟨n, limit⟩ := Nat.exists_eq_succ_of_ne_zero (Nat.one_le_iff_ne_zero.1 depth)
  have rule : type.rule? a.key.text = some (Rule.scalar kind ⟨type.name, a.key.text⟩) := by
    rw [MarkerType.rule?_eq, shape]
    rfl
  have start : Cursor.ofTokens (a.tokens ++ [finishAt p]) =
      ⟨[], a.sign, [a.tag, a.opening, a.key, a.equals, a.value, a.closing, finishAt p]⟩ := by
    rw [Cursor.ofTokens, Cursor.finished, List.getLast?_concat]
    rfl
  have fails : Rule.nested (Rule.attributes type.rule? (.fresh type)) d.allowance
      ⟨[a.tag, a.sign], a.opening, [a.key, a.equals, a.value, a.closing, finishAt p]⟩ =
        .error l := by
    rw [Rule.nested, Dialect.allowance, limit]
    exact Rule.attributes_eq_error a.opening_kind a.key_kind
      (Rule.entry_eq_error rule a.equals_kind (Rule.scalar_eq_error fault))
  rw [Dialect.markersOf, start,
    Rule.markers_sign a.sign_kind (by simp [Cursor.isGlued, Cursor.previous?])]
  exact Rule.bind_eq_error_iff.2 (.inl (Rule.marker?_eq_error tag known a.opening_kind fails))

end SoleAttribute

section

open SoleAttribute

variable {d : Dialect} {type : MarkerType} {key text : String} {kind : Kind}

theorem Dialect.read_spelling (known : d.vocabulary.lookup? type.name = some type)
    (name : Kind.name.Lexes type.name) (keyed : Kind.name.Lexes key) (written : kind.Lexes text)
    (token : kind ≠ .stray) :
    ∃ (a : SoleAttribute) (p : Nat), a.tag.name? = some type.name ∧ a.key.text = key ∧
      a.value.kind = kind ∧ a.value.text = text ∧
      a.value.span.Holds (spelling type.name key text) text ∧
      d.read (spelling type.name key text) =
        ((d.markersOf (a.tokens ++ [finishAt p])).mapError
          (.fault · (spelling type.name key text))).map Findings.ofMarkers := by
  have nonempty : d.vocabulary.isEmpty = false := by
    have mem := ((d.vocabulary.lookup?_eq_some_iff ..).1 known).1
    exact List.isEmpty_eq_false_iff.2 (List.ne_nil_of_mem mem)
  have region := ofBody?_spelling type.name key text
  obtain ⟨_, cut, a, rfl, tag, rfl, rfl, rfl⟩ :=
    spells_spelling name keyed written token 0 [] delimited_nil
  rw [List.append_nil, scan_nil] at cut
  have mem : a.value ∈ scan 0 (spelling type.name a.key.text a.value.text).toList := by
    rw [cut]
    simp [tokens]
  have markers := markers_of_region nonempty region
  rw [cut] at markers
  exact ⟨a, _, tag, rfl, rfl, rfl, holds_of_mem_scan region mem, congrArg _ markers⟩

theorem Dialect.read_verbatim (known : d.vocabulary.lookup? type.name = some type)
    (name : Kind.name.Lexes type.name) (keyed : Kind.name.Lexes key)
    (shape : type.shape? key = some (.scalar .string)) (depth : 1 ≤ d.limits.maxDepth)
    (literal : kind ∈ [.integer, .float, .trueWord, .falseWord]) (written : kind.Lexes text)
    (fits : kind = .integer → Numeral.Fits text.toList) :
    d.read (spelling type.name key text) =
      .ok ⟨[(type.name, .once ⟨type, [(key, .string text)]⟩)]⟩ := by
  have token : kind ≠ .stray := by
    rintro rfl
    simp at literal
  obtain ⟨a, p, tag, rfl, rfl, rfl, -, read⟩ := read_spelling known name keyed written token
  obtain ⟨l, value, coerced⟩ := Rule.literalOf_verbatim literal written fits
  rw [read, a.markersOf_eq_ok tag known shape depth value coerced]
  rfl

theorem Dialect.read_out_of_range (known : d.vocabulary.lookup? type.name = some type)
    (name : Kind.name.Lexes type.name) (keyed : Kind.name.Lexes key) {scalar : ScalarKind}
    (shape : type.shape? key = some (.scalar scalar)) (depth : 1 ≤ d.limits.maxDepth)
    (written : Kind.integer.Lexes text) (large : ¬ Numeral.Fits text.toList) :
    ∃ span : Span, span.Holds (spelling type.name key text) text ∧
      d.read (spelling type.name key text) =
        .error (.fault ⟨.badLiteral text, span⟩ (spelling type.name key text)) := by
  obtain ⟨a, p, tag, rfl, integer, rfl, holds, read⟩ :=
    read_spelling known name keyed written (by simp)
  have fault := Rule.literalOf_of_not_fits integer large
  refine ⟨a.value.span, holds, ?_⟩
  rw [read, a.markersOf_eq_error tag known shape depth fault]
  rfl

/-- A number or a boolean is kept as it is written where a string is declared, but for an integer
that is out of range: that one is a bad literal, although nothing asks for its value. -/
theorem Dialect.read_verbatim_iff_fits (d : Dialect) (type : MarkerType) (key text : String)
    (kind : Kind) (known : d.vocabulary.lookup? type.name = some type)
    (name : Kind.name.Lexes type.name) (keyed : Kind.name.Lexes key)
    (shape : type.shape? key = some (.scalar .string)) (depth : 1 ≤ d.limits.maxDepth)
    (literal : kind ∈ [.integer, .float, .trueWord, .falseWord]) (written : kind.Lexes text) :
    (d.read (spelling type.name key text) =
        .ok ⟨[(type.name, .once ⟨type, [(key, .string text)]⟩)]⟩ ↔
      (kind = .integer → Numeral.Fits text.toList)) ∧
    (kind = .integer → ¬ Numeral.Fits text.toList →
      ∃ span : Span, span.Holds (spelling type.name key text) text ∧
        d.read (spelling type.name key text) =
          .error (.fault ⟨.badLiteral text, span⟩ (spelling type.name key text))) := by
  have refused (integer : kind = .integer) (large : ¬ Numeral.Fits text.toList) :=
    read_out_of_range known name keyed shape depth (integer ▸ written) large
  refine ⟨⟨?_, read_verbatim known name keyed shape depth literal written⟩, refused⟩
  intro kept integer
  by_contra large
  obtain ⟨span, -, read⟩ := refused integer large
  cases kept.symm.trans read

theorem Dialect.read_verbatim_least_integer :
    ∃ d : Dialect, d.limits.maxDepth = 1 ∧
      d.read "@t(k = -09223372036854775808)" =
        .ok ⟨[("t", .once ⟨⟨"t", [("k", .scalar .string)]⟩,
          [("k", .string "-09223372036854775808")]⟩)]⟩ := by
  let type : MarkerType := ⟨"t", [("k", .scalar .string)]⟩
  let d : Dialect := ⟨⟨[type], by simp⟩, ⟨1⟩⟩
  have fits : Numeral.Fits "-09223372036854775808".toList :=
    ⟨-2 ^ 63, by decide, by decide, by decide⟩
  have verbatim := read_verbatim_iff_fits d type "k" "-09223372036854775808" .integer rfl
    (by decide) (by decide) rfl (by decide) (by decide) (by decide)
  exact ⟨d, rfl, verbatim.1.2 fun _ => fits⟩

theorem Dialect.read_refuses_integer_out_of_range :
    ∃ (d : Dialect) (type : MarkerType), d.vocabulary.lookup? type.name = some type ∧
      Kind.name.Lexes type.name ∧ Kind.name.Lexes "k" ∧ type.shape? "k" = some (.scalar .string) ∧
      1 ≤ d.limits.maxDepth ∧ Kind.integer.Lexes "9223372036854775808" ∧
      d.read (spelling type.name "k" "9223372036854775808") ≠
        .ok ⟨[(type.name, .once ⟨type, [("k", .string "9223372036854775808")]⟩)]⟩ := by
  let type : MarkerType := ⟨"t", [("k", .scalar .string)]⟩
  let d : Dialect := ⟨⟨[type], by simp⟩, ⟨64⟩⟩
  have written : Kind.integer.Lexes "9223372036854775808" := by decide
  have large : ¬ Numeral.Fits "9223372036854775808".toList := by
    have number : Numeral.integer? "9223372036854775808".toList = some (2 ^ 63) := by decide
    rintro ⟨z, hz, -, high⟩
    cases number.symm.trans hz
    exact absurd high (by decide)
  have known : d.vocabulary.lookup? type.name = some type := rfl
  have names : Kind.name.Lexes type.name ∧ Kind.name.Lexes "k" := by decide
  have shape : type.shape? "k" = some (.scalar .string) := rfl
  have depth : 1 ≤ d.limits.maxDepth := by decide
  refine ⟨d, type, known, names.1, names.2, shape, depth, written, ?_⟩
  obtain ⟨span, -, refused⟩ := read_out_of_range known names.1 names.2 shape depth written large
  intro kept
  cases refused.symm.trans kept

end

end DocMarks
