import DocMarks.Proofs.Conformance
import DocMarks.Proofs.Region
import DocMarks.Proofs.Token.Lexeme

namespace DocMarks

open Rule

def Fault.Located.Names (l : Fault.Located) (limit : Nat) (t : Token) : Prop :=
  l.span = t.span ∧
    match l.fault with
    | .unexpected _ found => found = t.found
    | .unknownAttribute _ key => key = t.text
    | .badValue _ _ (.mismatch m) => m.text = t.text
    | .badValue _ _ (.tag expected found) => t.name? = some found ∧ found ≠ expected
    | .badValue _ _ (.refused _) => False
    | .badLiteral text => text = t.text ∧ literalOf t = .error l
    | .tooDeep n => n = limit

def Cursor.Blamed (c : Cursor) (limit : Nat) (l : Fault.Located) : Prop :=
  ∃ t ∈ c.upcoming, l.Names limit t

theorem Cursor.blamed_of_names {c : Cursor} {limit : Nat} {l : Fault.Located}
    (h : l.Names limit c.current) : c.Blamed limit l := ⟨c.current, c.current_mem_upcoming, h⟩

theorem Cursor.Ahead.blamed {c d : Cursor} {limit : Nat} {l : Fault.Located} (ahead : c.Ahead d)
    (h : d.Blamed limit l) : c.Blamed limit l := by
  obtain ⟨t, ht, names⟩ := h
  exact ⟨t, ahead.mem ht, names⟩

/-- Whatever fault the rule gives names a token that was ahead. -/
def Rule.Blames {α : Type} (rule : Rule α) : Prop :=
  ∀ {a : Allowance} {c : Cursor} {l : Fault.Located}, c.Ends → rule a c = .error l →
    c.Blamed a.limit l

theorem Rule.expect_blames {kind : Token.Kind} {c : Cursor} {l : Fault.Located} (limit : Nat)
    (h : expect kind c = .error l) : l.Names limit c.current := by
  rw [expect] at h
  split at h <;> cases h
  exact ⟨rfl, rfl⟩

theorem Rule.literalOf_blames {t : Token} {l : Fault.Located} (limit : Nat)
    (h : literalOf t = .error l) : l.Names limit t := by
  have fault := h
  rw [literalOf.eq_def] at h
  split at h
  case h_3 =>
    split at h <;> cases h
    exact ⟨rfl, rfl, fault⟩
  case h_4 =>
    split at h <;> cases h
    exact ⟨rfl, rfl, fault⟩
  all_goals cases h
  exact ⟨rfl, rfl⟩

theorem Rule.literal_blames {c : Cursor} {l : Fault.Located} (limit : Nat)
    (h : literal c = .error l) : l.Names limit c.current := by
  cases bind_eq_error_iff.1 h with
  | inl h => exact literalOf_blames limit h
  | inr h =>
    obtain ⟨_, -, h⟩ := h
    cases h

theorem Literal.text_of_coerce {l : Literal} {text : String} {kind : ScalarKind} {m : Mismatch}
    (h : l.coerce text kind = .error m) : m.text = text := by
  rw [coerce.eq_def] at h
  split at h
  case h_7 =>
    split at h <;> cases h
    rfl
  case h_10 =>
    cases h
    rfl
  all_goals cases h

theorem Rule.scalar_blames (kind : ScalarKind) (owner : Owner) : (scalar kind owner).Blames := by
  intro a c l _ h
  apply Cursor.blamed_of_names
  cases bind_eq_error_iff.1 h with
  | inl h => exact literal_blames _ h
  | inr h =>
    obtain ⟨⟨k, d⟩, -, h⟩ := h
    cases hk : k.coerce c.current.text kind with
    | ok v => simp [hk] at h
    | error m =>
      simp only [hk, throw_eq_error, Except.error.injEq] at h
      subst h
      exact ⟨rfl, Literal.text_of_coerce hk⟩

theorem Rule.nested_blames {α : Type} {rule : Rule α} (blames : rule.Blames) :
    (nested rule).Blames := by
  intro a c l ends h
  rw [nested.eq_def] at h
  split at h
  case h_1 =>
    cases h
    exact Cursor.blamed_of_names ⟨rfl, rfl⟩
  case h_2 => exact (blames ends h :)

theorem Rule.items_blames {item : Rule Value} {derives : Nat → List Token → Value → Prop}
    (sound : item.Sound derives) (blames : item.Blames) (steps : Nat) (t : Table) :
    (items item steps t).Blames := by
  induction steps generalizing t with
  | zero =>
    intro a c l _ h
    cases h
    exact Cursor.blamed_of_names ⟨rfl, rfl⟩
  | succ steps ih =>
    have value : ∀ {a c l} (f : Value → Table), c.Ends →
        (item a c >>= fun r => items item steps (f r.1) a r.2) = .error l →
        c.Blamed a.limit l := by
      intro a c l f ends h
      cases bind_eq_error_iff.1 h with
      | inl h => exact blames ends h
      | inr h =>
        obtain ⟨⟨v, d⟩, hv, h⟩ := h
        obtain ⟨ts, passes, -⟩ := sound ends hv
        exact passes.ahead.blamed (ih _ (passes.ends ends) h)
    intro a c l ends h
    rw [items] at h
    split at h
    case h_1 => cases h
    case h_2 =>
      exact c.ahead_step.blamed (ih _ ends.step h)
    case h_3 =>
      split at h
      case isFalse => exact value _ ends h
      case isTrue =>
        cases bind_eq_error_iff.1 h with
        | inl h => exact Cursor.blamed_of_names (literal_blames _ h)
        | inr h =>
          obtain ⟨⟨k, d⟩, hk, h⟩ := h
          obtain ⟨-, rfl⟩ := literal_eq_ok_iff.1 hk
          cases bind_eq_error_iff.1 h with
          | inl h =>
            exact c.ahead_step.blamed (Cursor.blamed_of_names (expect_blames _ h))
          | inr h =>
            obtain ⟨d, hd, h⟩ := h
            obtain ⟨-, rfl⟩ := expect_eq_ok_iff.1 hd
            exact (c.ahead_step.trans c.step.ahead_step).blamed
              (value (t.insert k.toKey) ends.step.step h)

theorem Rule.table_blames {item : Rule Value} {derives : Nat → List Token → Value → Prop}
    (sound : item.Sound derives) (blames : item.Blames) : (table item).Blames := by
  intro a c l ends h
  cases bind_eq_error_iff.1 h with
  | inl h => exact Cursor.blamed_of_names (expect_blames _ h)
  | inr h =>
    obtain ⟨d, hd, h⟩ := h
    obtain ⟨-, rfl⟩ := expect_eq_ok_iff.1 hd
    cases bind_eq_error_iff.1 h with
    | inl h => exact c.ahead_step.blamed (items_blames sound blames _ _ ends.step h)
    | inr h =>
      obtain ⟨_, -, h⟩ := h
      cases h

def MarkerType.Blames (t : MarkerType) : Prop :=
  ∀ {key : String} {s : Shape} {owner : Owner}, t.shape? key = some s → (s.rule owner).Blames

/-- A value that was read for an attribute is never refused: reading and setting agree on what has
the shape. -/
theorem Marker.set_of_rule {m : Marker} {key : String} {s : Shape} {owner : Owner} {a : Allowance}
    {c d : Cursor} {v : Value} (declared : m.type.shape? key = some s) (ends : c.Ends)
    (h : s.rule owner a c = .ok (v, d)) :
    m.set key v = .ok ⟨m.type, Entries.put m.attributes key v⟩ := by
  obtain ⟨ts, -, derived⟩ := Shape.rule_sound s owner ends h
  exact (set_eq_ok_iff ..).2 ⟨⟨s, declared, derived.conforms.admits⟩, rfl⟩

theorem Rule.entry_blames {t : MarkerType} (blames : t.Blames) {m : Marker} (type : m.type = t) :
    (entry t.rule? m).Blames := by
  intro a c l ends h
  rw [entry, MarkerType.rule?_eq] at h
  cases hs : t.shape? c.current.text with
  | none =>
    simp only [hs, Option.map_none, throw_eq_error, Except.error.injEq] at h
    subst h
    exact Cursor.blamed_of_names ⟨rfl, rfl⟩
  | some s =>
    simp only [hs, Option.map_some] at h
    cases bind_eq_error_iff.1 h with
    | inl h => exact c.ahead_step.blamed (Cursor.blamed_of_names (expect_blames _ h))
    | inr h =>
      obtain ⟨d, hd, h⟩ := h
      obtain ⟨-, rfl⟩ := expect_eq_ok_iff.1 hd
      cases bind_eq_error_iff.1 h with
      | inl h =>
        exact (c.ahead_step.trans c.step.ahead_step).blamed (blames hs ends.step.step h)
      | inr h =>
        obtain ⟨⟨v, d⟩, hv, h⟩ := h
        simp [Marker.set_of_rule (type ▸ hs) ends.step.step hv] at h

theorem Rule.entries_blames {t : MarkerType} (blames : t.Blames) (steps : Nat) {m : Marker}
    (type : m.type = t) : (entries t.rule? steps m).Blames := by
  induction steps generalizing m with
  | zero =>
    intro a c l _ h
    cases h
    exact Cursor.blamed_of_names ⟨rfl, rfl⟩
  | succ steps ih =>
    intro a c l ends h
    rw [entries] at h
    split at h
    case h_1 => cases h
    case h_2 =>
      exact c.ahead_step.blamed (ih type ends.step h)
    case h_3 hk =>
      cases bind_eq_error_iff.1 h with
      | inl h => exact entry_blames blames type ends h
      | inr h =>
        obtain ⟨⟨n, d⟩, hn, h⟩ := h
        obtain ⟨_, _, _, _, _, passes, -, -, -, -, set⟩ := entry_sound t.sound ends hk hn
        exact passes.ahead.blamed (ih ((Marker.type_of_set set).trans type) (passes.ends ends) h)
    case h_4 =>
      cases h
      exact Cursor.blamed_of_names ⟨rfl, rfl⟩

theorem Rule.attributes_blames {t : MarkerType} (blames : t.Blames) {m : Marker}
    (type : m.type = t) : (attributes t.rule? m).Blames := by
  intro a c l ends h
  cases bind_eq_error_iff.1 h with
  | inl h => exact Cursor.blamed_of_names (expect_blames _ h)
  | inr h =>
    obtain ⟨d, hd, h⟩ := h
    obtain ⟨-, rfl⟩ := expect_eq_ok_iff.1 hd
    exact c.ahead_step.blamed (entries_blames blames _ type ends.step h)

theorem Rule.tag_blames {name : String} {owner : Owner} {c : Cursor} {l : Fault.Located}
    (limit : Nat) (h : tag name owner c = .error l) : l.Names limit c.step.current := by
  rw [tag] at h
  split at h
  case isFalse => cases h
  case isTrue =>
    simp only at h
    split at h
    case h_1 =>
      cases h
      exact ⟨rfl, rfl⟩
    case h_2 found hn =>
      split at h <;> cases h
      exact ⟨rfl, hn, by assumption⟩

theorem Rule.tagged_blames {t : MarkerType} (blames : t.Blames) (owner : Owner) :
    (tagged t t.rule? owner).Blames := by
  intro a c l ends h
  cases bind_eq_error_iff.1 h with
  | inl h => exact c.ahead_step.blamed (Cursor.blamed_of_names (tag_blames _ h))
  | inr h =>
    obtain ⟨d, hd, h⟩ := h
    have ahead : c.Ahead d := by
      rcases tag_eq_ok_iff.1 hd with ⟨-, -, rfl⟩ | ⟨-, rfl⟩
      · exact c.ahead_step.trans c.step.ahead_step
      · exact .refl d
    cases bind_eq_error_iff.1 h with
    | inl h => exact ahead.blamed (attributes_blames blames rfl (ahead.ends ends) h)
    | inr h =>
      obtain ⟨_, -, h⟩ := h
      cases h

theorem Shape.rule_blames (s : Shape) (owner : Owner) : (s.rule owner).Blames := by
  induction s using Shape.induction generalizing owner with
  | scalar kind =>
    rw [Shape.rule]
    exact scalar_blames kind owner
  | marker t ih =>
    rw [Shape.rule]
    exact nested_blames (tagged_blames (fun hs => ih _ (Entries.mem_of_get? hs) _) owner)
  | tableOf s ih =>
    rw [Shape.rule]
    exact nested_blames (table_blames (s.rule_sound owner) (ih owner))

theorem MarkerType.blames (t : MarkerType) : t.Blames := fun _ => Shape.rule_blames _ _

theorem Rule.marker?_blames (v : Vocabulary) : (marker? v).Blames := by
  intro a c l ends h
  rw [marker?] at h
  cases hn : c.step.current.name? with
  | none => simp [hn] at h
  | some name =>
    cases ht : v.lookup? name with
    | none => simp [hn, ht] at h
    | some t =>
      simp only [hn, ht] at h
      split at h
      case isFalse => cases h
      case isTrue =>
        cases bind_eq_error_iff.1 h with
        | inl h =>
          apply (c.ahead_step.trans c.step.ahead_step).blamed
          exact nested_blames (attributes_blames t.blames (Marker.type_fresh t)) ends.step.step h
        | inr h =>
          obtain ⟨_, -, h⟩ := h
          cases h

theorem Rule.markers_blames {v : Vocabulary} {a : Allowance} (steps : Nat) {c : Cursor}
    {l : Fault.Located} (ends : c.Ends) (h : markers v a steps c = .error l) :
    c.Blamed a.limit l := by
  induction steps generalizing c with
  | zero => cases h
  | succ steps ih =>
    rw [markers] at h
    split at h
    case isTrue => cases h
    case isFalse =>
      split at h
      case isTrue => exact c.ahead_step.blamed (ih ends.step h)
      case isFalse =>
        cases bind_eq_error_iff.1 h with
        | inl h => exact marker?_blames v ends h
        | inr h =>
          obtain ⟨⟨m?, d⟩, hm, h⟩ := h
          have ahead := marker?_ahead ends hm
          cases bind_eq_error_iff.1 h with
          | inl h => exact ahead.blamed (ih (ahead.ends ends) h)
          | inr h =>
            obtain ⟨_, -, h⟩ := h
            cases h

def Span.Holds (s : Span) (body part : String) : Prop :=
  ∃ before after, body.toList = before ++ part.toList ++ after ∧
    s = ⟨Text.width before, Text.width before + Text.width part.toList⟩

/-- The fault is inside the region, and it names the text at its span. -/
def Fault.Located.Accurate (l : Fault.Located) (limit : Nat) (body : String) (r : Region) : Prop :=
  r.span.start ≤ l.span.start ∧ l.span.start ≤ l.span.stop ∧ l.span.stop ≤ r.span.stop ∧
    ∃ part, l.span.Holds body part ∧
      match l.fault with
      | .unexpected _ found =>
        (l.span = .point r.span.stop ∧ found = "end of string") ∨
          (l.span.start < l.span.stop ∧ found = "'" ++ part ++ "'")
      | .unknownAttribute _ key => part = key
      | .badValue _ _ (.mismatch m) => part = m.text
      | .badValue _ _ (.tag expected found) =>
        ((Token.Kind.name.Lexes part ∧ part = found) ∨
          (Token.Kind.string.Lexes part ∧ unquote part = found)) ∧ found ≠ expected
      | .badValue _ _ (.refused _) => False
      | .badLiteral text => part = text
      | .tooDeep n => n = limit ∧ ∃ t ∈ Token.scan r.start r.text, t.span = l.span

theorem Token.lexes_of_mem_scan {p : Nat} {cs : List Char} {t : Token} (h : t ∈ scan p cs)
    (hk : t.kind = .name ∨ t.kind = .string) : t.kind.Lexes t.text := by
  obtain ⟨_, _, -, -, ⟨finish, -⟩ | ⟨c, ds, text, gap, lexed⟩⟩ := mem_scan h
  · rw [finish] at hk
    rcases hk with h | h <;> cases h
  · exact Kind.lexes_iff.2 ⟨c, ds, text, gap, lexeme_alone hk lexed⟩

theorem Token.found_of_mem_scan {r : Region} {t : Token} (h : t ∈ scan r.start r.text) :
    (t.span = .point r.span.stop ∧ t.found = "end of string") ∨
      (t.span.start < t.span.stop ∧ t.found = "'" ++ t.text ++ "'") := by
  obtain ⟨before, after, text, span, ⟨kind, empty, rfl⟩ | ⟨c, ds, ht, -, lexed⟩⟩ := mem_scan h
  · left
    rw [empty] at text span
    refine ⟨?_, by rw [found, kind]⟩
    rw [span, Region.span, text]
    simp [Span.point]
  · right
    have nonempty := c.utf8Size_pos
    refine ⟨?_, ?_⟩
    · rw [span, ht, Text.width_cons]
      simp only
      omega
    · have kind := lexeme_ne_finish c (ds ++ after)
      rw [lexed] at kind
      rw [found.eq_def]
      split
      · exact absurd (by assumption) kind
      · rfl

theorem Token.name?_of_mem_scan {p : Nat} {cs : List Char} {t : Token} {name : String}
    (h : t ∈ scan p cs) (hn : t.name? = some name) :
    (Kind.name.Lexes t.text ∧ t.text = name) ∨
      (Kind.string.Lexes t.text ∧ unquote t.text = name) := by
  have lexes := lexes_of_mem_scan h
  rw [name?.eq_def] at hn
  split at hn
  case h_1 hk =>
    rw [hk] at lexes
    exact .inl ⟨lexes (.inl rfl), Option.some.inj hn⟩
  case h_2 hk =>
    rw [hk] at lexes
    exact .inr ⟨lexes (.inr rfl), Option.some.inj hn⟩
  case h_3 => cases hn

theorem Token.holds_of_mem_scan {body : String} {r : Region} {t : Token}
    (region : Region.ofBody? body = some r) (h : t ∈ scan r.start r.text) :
    t.span.Holds body t.text := by
  obtain ⟨before, after, text, span, -⟩ := mem_scan h
  obtain ⟨outside, trailing, hbody, start⟩ := Region.ofBody?_eq region
  refine ⟨outside ++ before, after ++ trailing, ?_, ?_⟩
  · rw [hbody, text]
    simp
  · rw [span, start, Text.width_append]

theorem Fault.Located.Names.accurate {l : Fault.Located} {limit : Nat} {t : Token} {body : String}
    {r : Region} (names : l.Names limit t) (region : Region.ofBody? body = some r)
    (mem : t ∈ Token.scan r.start r.text) : l.Accurate limit body r := by
  obtain ⟨before, after, text, span, -⟩ := Token.mem_scan mem
  have width := congrArg Text.width text
  simp only [Text.width_append] at width
  obtain ⟨hspan, words⟩ := names
  rcases l with ⟨fault, _⟩
  simp only at hspan words
  subst hspan
  refine ⟨?_, ?_, ?_, t.text, Token.holds_of_mem_scan region mem, ?_⟩
  · rw [span]
    exact Nat.le_add_right _ _
  · rw [span]
    exact Nat.le_add_right _ _
  · rw [span, Region.span]
    simp only
    omega
  · cases fault with
    | unexpected expected found =>
      rw [words]
      exact Token.found_of_mem_scan mem
    | unknownAttribute marker key => exact words.symm
    | badValue marker key fault =>
      cases fault with
      | mismatch m => exact words.symm
      | tag expected found => exact ⟨Token.name?_of_mem_scan mem words.1, words.2⟩
      | refused r => exact words
    | badLiteral text => exact words.1.symm
    | tooDeep n => exact ⟨words, t, mem, rfl⟩

theorem Dialect.markers_eq_error {d : Dialect} {body : String} {e : ReadError}
    (h : d.markers body = .error e) (known : e ≠ .emptyVocabulary) :
    ∃ l r, e = .fault l body ∧ Region.ofBody? body = some r ∧
      d.markersOf (Token.scan r.start r.text) = .error l := by
  rw [Dialect.markers] at h
  split at h
  case isTrue =>
    cases h
    exact absurd rfl known
  case isFalse =>
    split at h
    case h_1 => cases h
    case h_2 r region =>
      cases hr : d.markersOf (Token.scan r.start r.text) with
      | ok ms => simp [hr, Except.mapError] at h
      | error l =>
        simp only [hr, Except.mapError, Except.error.injEq] at h
        exact ⟨l, r, h.symm, region, hr⟩

/-- Every fault comes with its comment and is accurate in the region of it. -/
theorem Dialect.read_error_accurate (d : Dialect) (body : String) (e : ReadError)
    (h : d.read body = .error e) (known : e ≠ .emptyVocabulary) :
    ∃ l r, e = .fault l body ∧ Region.ofBody? body = some r ∧
      l.Accurate d.limits.maxDepth body r := by
  have h : d.markers body = .error e := by
    rw [Dialect.read] at h
    cases hm : d.markers body with
    | ok ms => simp [hm, Except.map] at h
    | error e' => simpa [hm, Except.map] using h
  obtain ⟨l, r, he, region, fault⟩ := markers_eq_error h known
  refine ⟨l, r, he, region, ?_⟩
  obtain ⟨t, ht, names⟩ := Rule.markers_blames _ (Cursor.ends_ofTokens _) fault
  rw [Cursor.upcoming_ofTokens, Token.finished_scan] at ht
  exact names.accurate region ht

theorem Dialect.read_error_accurate_tag :
    ∃ (d : Dialect) (e : ReadError), d.read "é @p(k = @\"q\"())" = .error e ∧
      e ≠ .emptyVocabulary ∧ ∃ l r, e = .fault l "é @p(k = @\"q\"())" ∧ l.span = ⟨11, 14⟩ ∧
        l.Accurate d.limits.maxDepth "é @p(k = @\"q\"())" r := by
  have h : Dialect.read ⟨⟨[⟨"p", [("k", .marker ⟨"r", []⟩)]⟩], by simp⟩, ⟨2⟩⟩
      "é @p(k = @\"q\"())" =
        .error (.fault ⟨.badValue "p" "k" (.tag "r" "q"), ⟨11, 14⟩⟩ "é @p(k = @\"q\"())") := by
    cbv
  obtain ⟨l, r, he, -, accurate⟩ := read_error_accurate _ _ _ h (by simp)
  cases he
  exact ⟨_, _, h, by simp, _, r, rfl, rfl, accurate⟩

theorem Dialect.markersOf_not_refused {d : Dialect} {ts : List Token} {l : Fault.Located}
    (h : d.markersOf ts = .error l) (marker key : String) (r : Marker.Refusal) :
    l.fault ≠ .badValue marker key (.refused r) := by
  obtain ⟨t, -, names⟩ := Rule.markers_blames _ (Cursor.ends_ofTokens ts) h
  intro refused
  simpa [refused] using names.2

/-- Setting an attribute to what was read for it cannot fail, so no comment has a refusal for its
fault. -/
theorem Dialect.read_never_refused (d : Dialect) :
    (∀ (body text : String) (l : Fault.Located), d.read body = .error (.fault l text) →
      ∀ marker key r, l.fault ≠ .badValue marker key (.refused r)) ∧
    ∀ (m : Marker) (key : String) (s : Shape) (owner : Owner) (a : Allowance) (c c' : Cursor)
      (v : Value), m.type.shape? key = some s → c.Ends → s.rule owner a c = .ok (v, c') →
      m.set key v = .ok ⟨m.type, Entries.put m.attributes key v⟩ := by
  constructor
  · intro body text l h
    obtain ⟨l, r, fault, -, stopped⟩ := markers_eq_error (read_eq_error_iff.1 h) (by simp)
    cases fault
    exact markersOf_not_refused stopped
  · intro m key s owner a c c' v declared ends h
    exact Marker.set_of_rule declared ends h

theorem Dialect.read_never_refused_mixed :
    ∃ (d : Dialect) (l : Fault.Located) (m : Marker) (c c' : Cursor) (t : Table),
      d.read "@p(k = \x7b\x7bnull\x7d\x7d)" = .error (.fault l "@p(k = \x7b\x7bnull\x7d\x7d)") ∧
      (∀ marker key r, l.fault ≠ .badValue marker key (.refused r)) ∧
      c.Ends ∧ (Shape.tableOf (.scalar .mixed)).rule ⟨"p", "k"⟩ ⟨1, 1⟩ c = .ok (.table t, c') ∧
      t.values.map Value.kindName = ["null", "integer"] ∧
      m.set "k" (.table t) = .ok ⟨m.type, [("k", .table t)]⟩ := by
  have stopped : ∃ l, Dialect.read ⟨⟨[⟨"p", [("k", .tableOf (.scalar .mixed))]⟩], by simp⟩, ⟨2⟩⟩
      "@p(k = \x7b\x7bnull\x7d\x7d)" = .error (.fault l "@p(k = \x7b\x7bnull\x7d\x7d)") :=
    ⟨_, by cbv⟩
  have read : ∃ t c', (Shape.tableOf (.scalar .mixed)).rule ⟨"p", "k"⟩ ⟨1, 1⟩
      (.ofTokens (Token.ofText "\x7ba: null, 2\x7d" 0)) = .ok (.table t, c') ∧
        t.values.map Value.kindName = ["null", "integer"] := ⟨_, _, by cbv, by cbv⟩
  obtain ⟨l, stopped⟩ := stopped
  obtain ⟨t, c', read, kinds⟩ := read
  have ends := Cursor.ends_ofTokens (Token.ofText "\x7ba: null, 2\x7d" 0)
  obtain ⟨faults, sets⟩ := read_never_refused
    ⟨⟨[⟨"p", [("k", .tableOf (.scalar .mixed))]⟩], by simp⟩, ⟨2⟩⟩
  exact ⟨_, l, .fresh ⟨"p", [("k", .tableOf (.scalar .mixed))]⟩, _, c', t, stopped,
    faults _ _ l stopped, ends, read, kinds, sets _ "k" _ _ _ _ c' _ rfl ends read⟩

end DocMarks
