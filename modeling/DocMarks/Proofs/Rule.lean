import DocMarks.Dialect

namespace DocMarks

def Token.Kind.opensValue : Token.Kind → Bool
  | .braceOpen | .parenOpen | .atSign => true
  | kind => kind.isLiteral

namespace Rule

variable {α β : Type}

theorem bind_eq_ok_iff {x : Except Fault.Located α} {f : α → Except Fault.Located β} {b : β} :
    x >>= f = .ok b ↔ ∃ a, x = .ok a ∧ f a = .ok b := by
  cases x with
  | error e => simp [bind, Except.bind]
  | ok a => simp [bind, Except.bind]

theorem bind_eq_error_iff {x : Except Fault.Located α} {f : α → Except Fault.Located β}
    {l : Fault.Located} :
    x >>= f = .error l ↔ x = .error l ∨ ∃ a, x = .ok a ∧ f a = .error l := by
  cases x with
  | error e => simp [bind, Except.bind]
  | ok a => simp [bind, Except.bind]

theorem bind_congr_ok {x : Except Fault.Located α} {f g : α → Except Fault.Located β}
    (h : ∀ y, x = .ok y → f y = g y) : x >>= f = x >>= g := by
  cases x with
  | error l => rfl
  | ok y => exact h y rfl

@[simp] theorem throw_eq_error (e : Fault.Located) :
    (throw e : Except Fault.Located α) = .error e := rfl

@[simp] theorem pure_eq_ok (x : α) : (pure x : Except Fault.Located α) = .ok x := rfl

theorem expect_eq_ok_iff {kind : Token.Kind} {c d : Cursor} :
    expect kind c = .ok d ↔ c.current.kind = kind ∧ d = c.step := by
  unfold expect
  split
  · simp [*, eq_comm]
  · simp [*]

theorem nested_eq_ok_iff {rule : Rule α} {a : Allowance} {c : Cursor} {r : α × Cursor} :
    nested rule a c = .ok r ↔ ∃ n, a.left = n + 1 ∧ rule ⟨a.limit, n⟩ c = .ok r := by
  unfold nested
  cases a.left with
  | zero => simp
  | succ n => simp

theorem literal_eq_ok_iff {c d : Cursor} {l : Literal} :
    literal c = .ok (l, d) ↔ literalOf c.current = .ok l ∧ d = c.step := by
  simp only [literal, bind_eq_ok_iff]
  constructor
  · rintro ⟨k, hk, h⟩
    cases h
    exact ⟨hk, rfl⟩
  · rintro ⟨hl, rfl⟩
    exact ⟨l, hl, rfl⟩

theorem isLiteral_of_literalOf {t : Token} {l : Literal} (h : literalOf t = .ok l) :
    t.kind.isLiteral := by
  unfold literalOf at h
  split at h <;> simp_all [Token.Kind.isLiteral]

theorem scalar_eq_ok_iff {kind : ScalarKind} {owner : Owner} {a : Allowance} {c d : Cursor}
    {v : Value} :
    scalar kind owner a c = .ok (v, d) ↔
      ∃ l, literalOf c.current = .ok l ∧ l.coerce c.current.text kind = .ok v ∧ d = c.step := by
  simp only [scalar, bind_eq_ok_iff, Prod.exists, literal_eq_ok_iff]
  constructor
  · rintro ⟨l, _, ⟨hl, rfl⟩, h⟩
    refine ⟨l, hl, ?_⟩
    cases hv : l.coerce c.current.text kind with
    | error m => simp [hv] at h
    | ok w =>
      simp only [hv, pure_eq_ok, Except.ok.injEq, Prod.mk.injEq] at h
      simp [h.1, h.2]
  · rintro ⟨l, hl, hv, rfl⟩
    exact ⟨l, c.step, ⟨hl, rfl⟩, by simp [hv]⟩

theorem literal_eq_error {c : Cursor} {l : Fault.Located} (fault : literalOf c.current = .error l) :
    literal c = .error l :=
  bind_eq_error_iff.2 (.inl fault)

theorem scalar_eq_error {kind : ScalarKind} {owner : Owner} {a : Allowance} {c : Cursor}
    {l : Fault.Located} (fault : literalOf c.current = .error l) :
    scalar kind owner a c = .error l :=
  bind_eq_error_iff.2 (.inl (literal_eq_error fault))

theorem table_eq_ok_iff {item : Rule Value} {a : Allowance} {c d : Cursor} {v : Value} :
    table item a c = .ok (v, d) ↔
      c.current.kind = .braceOpen ∧
        ∃ t, items item (c.step.remaining + 1) {} a c.step = .ok (t, d) ∧ v = .table t := by
  simp only [table, bind_eq_ok_iff, expect_eq_ok_iff, Prod.exists]
  constructor
  · rintro ⟨_, ⟨hk, rfl⟩, t, _, ht, h⟩
    cases h
    exact ⟨hk, t, ht, rfl⟩
  · rintro ⟨hk, t, ht, rfl⟩
    exact ⟨c.step, ⟨hk, rfl⟩, t, d, ht, rfl⟩

theorem entry_eq_ok_iff {value? : String → Option (Rule Value)} {m m' : Marker} {a : Allowance}
    {c d : Cursor} :
    entry value? m a c = .ok (m', d) ↔
      ∃ value v, value? c.current.text = some value ∧ c.step.current.kind = .equals ∧
        value a c.step.step = .ok (v, d) ∧ m.set c.current.text v = .ok m' := by
  unfold entry
  cases hv : value? c.current.text with
  | none => simp [hv]
  | some value =>
    simp only [hv, bind_eq_ok_iff, expect_eq_ok_iff, Prod.exists, Option.some.injEq]
    constructor
    · rintro ⟨_, ⟨hk, rfl⟩, v, e, h, hm⟩
      cases hs : m.set c.current.text v with
      | error r => simp [hs] at hm
      | ok n =>
        simp only [hs, pure_eq_ok, Except.ok.injEq, Prod.mk.injEq] at hm
        obtain ⟨rfl, rfl⟩ := hm
        exact ⟨value, v, rfl, hk, h, hs⟩
    · rintro ⟨_, v, rfl, hk, h, hs⟩
      exact ⟨c.step.step, ⟨hk, rfl⟩, v, d, h, by simp [hs]⟩

theorem attributes_eq_ok_iff {value? : String → Option (Rule Value)} {m m' : Marker}
    {a : Allowance} {c d : Cursor} :
    attributes value? m a c = .ok (m', d) ↔
      c.current.kind = .parenOpen ∧
        entries value? (c.step.remaining + 1) m a c.step = .ok (m', d) := by
  simp only [attributes, bind_eq_ok_iff, expect_eq_ok_iff]
  constructor
  · rintro ⟨_, ⟨hk, rfl⟩, h⟩
    exact ⟨hk, h⟩
  · rintro ⟨hk, h⟩
    exact ⟨c.step, ⟨hk, rfl⟩, h⟩

theorem tag_eq_ok_iff {name : String} {owner : Owner} {c d : Cursor} :
    tag name owner c = .ok d ↔
      (c.current.kind = .atSign ∧ c.step.current.name? = some name ∧ d = c.step.step) ∨
        (c.current.kind ≠ .atSign ∧ d = c) := by
  unfold tag
  by_cases hk : c.current.kind = .atSign
  · cases hn : c.step.current.name? with
    | none => simp [hk, hn]
    | some found =>
      by_cases hf : found = name
      · simp [hk, hn, hf, eq_comm]
      · simp [hk, hn, hf]
  · simp [hk, eq_comm]

theorem tagged_eq_ok_iff {t : MarkerType} {value? : String → Option (Rule Value)} {owner : Owner}
    {a : Allowance} {c d : Cursor} {v : Value} :
    tagged t value? owner a c = .ok (v, d) ↔
      ∃ e m, tag t.name owner c = .ok e ∧ attributes value? (.fresh t) a e = .ok (m, d) ∧
        v = .marker m := by
  simp only [tagged, bind_eq_ok_iff, Prod.exists]
  constructor
  · rintro ⟨e, he, m, _, hm, h⟩
    cases h
    exact ⟨e, m, he, hm, rfl⟩
  · rintro ⟨e, m, he, hm, rfl⟩
    exact ⟨e, he, m, d, hm, rfl⟩

theorem marker?_eq_ok_iff {v : Vocabulary} {a : Allowance} {c d : Cursor} {m? : Option Marker} :
    marker? v a c = .ok (m?, d) ↔
      (c.step.current.name? = none ∧ m? = none ∧ d = c.step) ∨
        ∃ name, c.step.current.name? = some name ∧
          ((v.lookup? name = none ∧ m? = none ∧ d = c.step.step) ∨
            ∃ t, v.lookup? name = some t ∧
              ((c.step.step.current.kind ≠ .parenOpen ∧ m? = some (.fresh t) ∧ d = c.step.step) ∨
                ∃ m, c.step.step.current.kind = .parenOpen ∧ m? = some m ∧
                  nested (attributes t.rule? (.fresh t)) a c.step.step = .ok (m, d))) := by
  rw [marker?]
  cases hn : c.step.current.name? with
  | none => simp [eq_comm]
  | some name =>
    cases ht : v.lookup? name with
    | none => simp [ht, eq_comm]
    | some t =>
      by_cases hk : c.step.step.current.kind = .parenOpen
      · simp only [ht, hk, if_true, bind_eq_ok_iff, Prod.exists, pure_eq_ok, Except.ok.injEq,
          Prod.mk.injEq]
        constructor
        · rintro ⟨m, e, hm, rfl, rfl⟩
          exact .inr ⟨name, rfl, .inr ⟨t, ht, .inr ⟨m, trivial, rfl, hm⟩⟩⟩
        · rintro (⟨none, -⟩ | ⟨_, ⟨⟩, ⟨unknown, -⟩ | ⟨u, hu, ⟨other, -⟩ | ⟨m, -, rfl, hm⟩⟩⟩)
          · cases none
          · simp [ht] at unknown
          · exact absurd rfl other
          · rw [ht] at hu
            cases hu
            exact ⟨m, d, hm, rfl, rfl⟩
      · simp [ht, hk, eq_comm]

theorem markers_succ_eq_ok {v : Vocabulary} {a : Allowance} {steps : Nat} {c : Cursor}
    {ms : List Marker} (h : markers v a (steps + 1) c = .ok ms) :
    (c.isFinished ∧ ms = []) ∨ markers v a steps c.step = .ok ms ∨
      ∃ m? d ms', c.current.kind = .atSign ∧ ¬ c.isGlued ∧ marker? v a c = .ok (m?, d) ∧
        markers v a steps d = .ok ms' ∧ ms = m?.toList ++ ms' := by
  rw [markers] at h
  split at h
  case isTrue finished =>
    cases h
    exact .inl ⟨finished, rfl⟩
  case isFalse =>
    split at h
    case isTrue => exact .inr (.inl h)
    case isFalse opens =>
      simp only [bind_eq_ok_iff, Prod.exists] at h
      obtain ⟨m?, d, hm, ms', hms, h⟩ := h
      cases h
      simp only [Bool.or_eq_true, bne_iff_ne, not_or, Decidable.not_not] at opens
      exact .inr (.inr ⟨m?, d, ms', opens.1, opens.2, hm, hms, rfl⟩)

section Steps

variable {item : Rule Value} {value? : String → Option (Rule Value)} {v : Vocabulary} {steps : Nat}
  {t : Table} {m : Marker} {a : Allowance} {c : Cursor}

theorem items_close (h : c.current.kind = .braceClose) :
    items item (steps + 1) t a c = .ok (t, c.step) := by
  rw [items, h]

theorem items_comma (h : c.current.kind = .comma) :
    items item (steps + 1) t a c = items item steps t a c.step := by
  rw [items, h]

theorem items_key (key : c.current.kind.isLiteral) (next : c.next.kind = .colon) :
    items item (steps + 1) t a c =
      literal c >>= fun (l, d) => expect .colon d >>= fun e =>
        item a e >>= fun (v, f) => items item steps (t.insert l.toKey v) a f := by
  rw [items]
  split
  case h_1 hk => simp [hk, Token.Kind.isLiteral] at key
  case h_2 hk => simp [hk, Token.Kind.isLiteral] at key
  case h_3 => rw [if_pos (by simp [key, next])]

theorem items_keyed {l : Literal} (key : literalOf c.current = .ok l)
    (next : c.next.kind = .colon) (colon : c.step.current.kind = .colon) :
    items item (steps + 1) t a c =
      item a c.step.step >>= fun (v, d) => items item steps (t.insert l.toKey v) a d := by
  rw [items_key (isLiteral_of_literalOf key) next, literal_eq_ok_iff.2 ⟨key, rfl⟩]
  simp only [bind, Except.bind, expect_eq_ok_iff.2 ⟨colon, rfl⟩]

theorem items_value (close : c.current.kind ≠ .braceClose) (comma : c.current.kind ≠ .comma)
    (free : c.current.kind.isLiteral → c.next.kind ≠ .colon) :
    items item (steps + 1) t a c =
      item a c >>= fun (v, d) => items item steps (t.push v) a d := by
  rw [items]
  split
  case h_1 hk => exact absurd hk close
  case h_2 hk => exact absurd hk comma
  case h_3 => rw [if_neg (by simpa using free)]

theorem items_pushed (opens : c.current.kind.opensValue)
    (free : c.current.kind.isLiteral → c.next.kind ≠ .colon) :
    items item (steps + 1) t a c =
      item a c >>= fun (v, d) => items item steps (t.push v) a d := by
  apply items_value _ _ free
  · intro hk
    simp [hk, Token.Kind.opensValue, Token.Kind.isLiteral] at opens
  · intro hk
    simp [hk, Token.Kind.opensValue, Token.Kind.isLiteral] at opens

theorem entries_close (h : c.current.kind = .parenClose) :
    entries value? (steps + 1) m a c = .ok (m, c.step) := by
  rw [entries, h]

theorem entries_comma (h : c.current.kind = .comma) :
    entries value? (steps + 1) m a c = entries value? steps m a c.step := by
  rw [entries, h]

theorem entries_entry (h : c.current.kind = .name) :
    entries value? (steps + 1) m a c =
      entry value? m a c >>= fun (m, d) => entries value? steps m a d := by
  rw [entries, h]

theorem entries_other (close : c.current.kind ≠ .parenClose) (comma : c.current.kind ≠ .comma)
    (name : c.current.kind ≠ .name) :
    entries value? (steps + 1) m a c =
      .error (Fault.unexpectedToken "attribute name or ')'" c.current) := by
  rw [entries]
  split
  case h_1 hk => exact absurd hk close
  case h_2 hk => exact absurd hk comma
  case h_3 hk => exact absurd hk name
  case h_4 => rfl

theorem markers_finished (finish : c.current.kind = .finish) : markers v a steps c = .ok [] := by
  cases steps with
  | zero => rfl
  | succ steps => simp [markers, Cursor.isFinished, finish]

theorem markers_text (more : c.current.kind ≠ .finish)
    (text : ¬ (c.current.kind = .atSign ∧ ¬ c.isGlued)) :
    markers v a (steps + 1) c = markers v a steps c.step := by
  rw [markers, if_neg (by simpa [Cursor.isFinished] using more), if_pos]
  rw [Bool.or_eq_true, bne_iff_ne, ne_eq, Decidable.imp_iff_not_or.symm]
  exact fun sign => Decidable.not_not.1 fun free => text ⟨sign, free⟩

theorem markers_sign (sign : c.current.kind = .atSign) (free : ¬ c.isGlued) :
    markers v a (steps + 1) c =
      marker? v a c >>= fun (m?, d) => markers v a steps d >>= fun ms => .ok (m?.toList ++ ms) := by
  rw [markers, if_neg (by simp [Cursor.isFinished, sign]), if_neg (by simp [sign, free])]
  rfl

end Steps

end Rule

namespace Dialect

variable {d : Dialect} {body : String}

theorem markers_of_none (known : d.vocabulary.isEmpty = false) (h : Region.ofBody? body = none) :
    d.markers body = .ok [] := by
  simp [markers, known, h]

theorem markers_of_region {r : Region} (known : d.vocabulary.isEmpty = false)
    (h : Region.ofBody? body = some r) :
    d.markers body =
      (d.markersOf (Token.scan r.start r.text)).mapError fun l => .fault l body := by
  simp [markers, known, h]

theorem markers_eq_ok_iff {r : Region} {ms : List Marker} (known : d.vocabulary.isEmpty = false)
    (h : Region.ofBody? body = some r) :
    d.markers body = .ok ms ↔ d.markersOf (Token.scan r.start r.text) = .ok ms := by
  rw [markers_of_region known h]
  cases d.markersOf (Token.scan r.start r.text) with
  | error l =>
    constructor
    · intro h
      cases h
    · intro h
      cases h
  | ok ms' =>
    constructor
    · intro h
      cases h
      rfl
    · intro h
      cases h
      rfl

theorem markers_eq_error_iff {r : Region} {e : ReadError} (known : d.vocabulary.isEmpty = false)
    (h : Region.ofBody? body = some r) :
    d.markers body = .error e ↔
      ∃ l, d.markersOf (Token.scan r.start r.text) = .error l ∧ e = .fault l body := by
  rw [markers_of_region known h]
  cases d.markersOf (Token.scan r.start r.text) with
  | error l =>
    constructor
    · intro h
      cases h
      exact ⟨l, rfl, rfl⟩
    · rintro ⟨_, h, rfl⟩
      cases h
      rfl
  | ok ms =>
    constructor
    · intro h
      cases h
    · rintro ⟨_, h, -⟩
      cases h

theorem read_eq_ok_iff {f : Findings} :
    d.read body = .ok f ↔ ∃ ms, d.markers body = .ok ms ∧ f = Findings.ofMarkers ms := by
  rw [read]
  cases d.markers body with
  | error e => simp [Except.map]
  | ok ms => simp [Except.map, eq_comm]

theorem read_eq_error_iff {e : ReadError} : d.read body = .error e ↔ d.markers body = .error e := by
  rw [read]
  cases d.markers body with
  | error e' => simp [Except.map]
  | ok ms => simp [Except.map]

end Dialect
end DocMarks
