import Mathlib
import DocMarks.Proofs.Grammar.Soundness
import DocMarks.Token.Lexer

namespace DocMarks

open Rule

variable {α β : Type}

/-- The outcome is the result, or the fault of a rule that had fewer than `n` levels left. -/
def Rule.Reaches (n : Nat) (a : Allowance) (outcome : Except Fault.Located α) (x : α) : Prop :=
  outcome = .ok x ∨ a.left < n ∧ ∃ span, outcome = .error ⟨.tooDeep a.limit, span⟩

namespace Rule.Reaches

variable {n : Nat} {a : Allowance} {x : α} {y : β}

theorem ok : Reaches n a (.ok x) x := .inl rfl

theorem bind {outcome : Except Fault.Located α} {f : α → Except Fault.Located β}
    (first : Reaches n a outcome x) (rest : Reaches n a (f x) y) :
    Reaches n a (outcome >>= f) y := by
  cases first with
  | inl h =>
    rw [h]
    exact rest
  | inr h =>
    obtain ⟨few, span, h⟩ := h
    rw [h]
    exact .inr ⟨few, span, rfl⟩

theorem nested {rule : Rule α} {c : Cursor} {r : α × Cursor}
    (h : ∀ left, Reaches n ⟨a.limit, left⟩ (rule ⟨a.limit, left⟩ c) r) :
    Reaches (n + 1) a (Rule.nested rule a c) r := by
  rw [Rule.nested.eq_def]
  cases hl : a.left with
  | zero => exact .inr ⟨by omega, c.current.span, rfl⟩
  | succ left =>
    cases h left with
    | inl h => exact .inl h
    | inr h => exact .inr ⟨by simpa [hl] using h.1, h.2⟩

theorem ok_of_le {outcome : Except Fault.Located α} (h : Reaches n a outcome x)
    (enough : n ≤ a.left) : outcome = .ok x := by
  cases h with
  | inl h => exact h
  | inr h => exact absurd h.1 (by omega)

theorem ok_of_not_tooDeep {outcome : Except Fault.Located α} (h : Reaches n a outcome x)
    (shallow : ∀ limit span, outcome ≠ .error ⟨.tooDeep limit, span⟩) : outcome = .ok x := by
  cases h with
  | inl h => exact h
  | inr h =>
    obtain ⟨-, span, h⟩ := h
    exact absurd h (shallow _ span)

theorem entry {value? : String → Option (Rule Value)} {value : Rule Value} {m m' : Marker}
    {c d : Cursor} {v : Value} (rule : value? c.current.text = some value)
    (equals : c.step.current.kind = .equals) (h : Reaches n a (value a c.step.step) (v, d))
    (set : m.set c.current.text v = .ok m') : Reaches n a (Rule.entry value? m a c) (m', d) := by
  rw [Rule.entry, rule]
  simp only [expect_eq_ok_iff.2 ⟨equals, rfl⟩]
  exact h.bind (by rw [set]; exact .ok)

end Rule.Reaches

theorem Token.Kind.opensValue_of_isLiteral {kind : Token.Kind} (h : kind.isLiteral) :
    kind.opensValue := by
  revert h
  cases kind <;> decide

theorem Shape.Derives.head {s : Shape} {n : Nat} {ts : List Token} {v : Value}
    (h : s.Derives n ts v) :
    ∃ t us, ts = t :: us ∧ t.kind.opensValue ∧ (t.kind.isLiteral → us = []) := by
  cases h with
  | scalar hl hv =>
    exact ⟨_, [], rfl, Token.Kind.opensValue_of_isLiteral (isLiteral_of_literalOf hl), fun _ => rfl⟩
  | table hk _ _ => exact ⟨_, _, rfl, by rw [hk]; rfl, by simp [hk, Token.Kind.isLiteral]⟩
  | untagged h _ =>
    cases h with
    | list hk _ _ => exact ⟨_, _, rfl, by rw [hk]; rfl, by simp [hk, Token.Kind.isLiteral]⟩
  | tagged hk _ _ _ => exact ⟨_, _, rfl, by rw [hk]; rfl, by simp [hk, Token.Kind.isLiteral]⟩

/-- No item starts with a colon, so a literal before one is a key. -/
theorem Shape.DerivesItems.not_colon {s : Shape} {n : Nat} {ts : List Token}
    {written : List (Option Key × Value)} {c d : Cursor} (h : s.DerivesItems n ts written)
    (passes : c.Passes ts d) (closes : d.current.kind = .braceClose) :
    c.current.kind ≠ .colon := by
  intro colon
  cases h with
  | nil =>
    rw [Cursor.passes_nil_iff.1 passes] at closes
    simp [closes] at colon
  | comma hk _ =>
    rw [(Cursor.passes_cons_iff.1 passes).1, hk] at colon
    cases colon
  | keyed hl _ _ _ =>
    have literal := isLiteral_of_literalOf hl
    rw [← (Cursor.passes_cons_iff.1 passes).1, colon] at literal
    cases literal
  | pushed hv _ =>
    obtain ⟨t, us, rfl, opens, -⟩ := hv.head
    rw [← (Cursor.passes_cons_iff.1 passes).1, colon] at opens
    cases opens

-- every pair of brackets lowers `n`, and within one pair the lists of items get shorter
mutual

theorem Shape.Derives.reaches {s : Shape} {n : Nat} {ts : List Token} {v : Value} :
    s.Derives n ts v → ∀ (owner : Owner) (a : Allowance) {c d : Cursor}, c.Passes ts d →
      Reaches n a (s.rule owner a c) (v, d)
  | .scalar hl hv, owner, a, c, d, passes => by
    obtain ⟨rfl, -, hd⟩ := Cursor.passes_cons_iff.1 passes
    rw [Shape.rule]
    exact .inl (scalar_eq_ok_iff.2 ⟨_, hl, hv, Cursor.passes_nil_iff.1 hd⟩)
  | .table hk items hc, owner, a, c, d, passes => by
    obtain ⟨rfl, -, rest⟩ := Cursor.passes_cons_iff.1 passes
    obtain ⟨e, before, closing⟩ := Cursor.passes_append_iff.1 rest
    obtain ⟨rfl, -, hd⟩ := Cursor.passes_cons_iff.1 closing
    obtain rfl := Cursor.passes_nil_iff.1 hd
    rw [Shape.rule]
    apply Reaches.nested
    intro left
    rw [Rule.table, expect_eq_ok_iff.2 ⟨hk, rfl⟩]
    exact (items.reaches owner _ _ before hc _ (Nat.lt_succ_self _)).bind .ok
  | .untagged h hm, owner, a, c, d, passes => by
    have untagged : c.current.kind ≠ .atSign := by
      cases h with
      | list hk _ _ => simp [(Cursor.passes_cons_iff.1 passes).1, hk]
    rw [Shape.rule]
    apply Reaches.nested
    intro left
    rw [Rule.tagged, tag_eq_ok_iff.2 (.inr ⟨untagged, rfl⟩)]
    exact (h.reaches _ passes rfl hm).bind .ok
  | .tagged hsign hname h hm, owner, a, c, d, passes => by
    obtain ⟨rfl, -, rest⟩ := Cursor.passes_cons_iff.1 passes
    obtain ⟨rfl, -, rest⟩ := Cursor.passes_cons_iff.1 rest
    rw [Shape.rule]
    apply Reaches.nested
    intro left
    rw [Rule.tagged, tag_eq_ok_iff.2 (.inl ⟨hsign, hname, rfl⟩)]
    exact (h.reaches _ rest rfl hm).bind .ok
termination_by (n, 0, 0, 0)

theorem Shape.DerivesItems.reaches {s : Shape} {n : Nat} {ts : List Token}
    {written : List (Option Key × Value)} :
    s.DerivesItems n ts written → ∀ (owner : Owner) (a : Allowance) (t : Table) {c d : Cursor},
      c.Passes ts d → d.current.kind = .braceClose → ∀ steps, c.remaining < steps →
      Reaches n a (items (s.rule owner) steps t a c) (t.writeAll written, d.step)
  | .nil, owner, a, t, c, d, passes, closes, steps + 1, enough => by
    obtain rfl := Cursor.passes_nil_iff.1 passes
    rw [items_close closes]
    exact .ok
  | .comma hk h, owner, a, t, c, d, passes, closes, steps + 1, enough => by
    obtain ⟨first, -, rest⟩ := Cursor.passes_cons_iff.1 passes
    rw [items_comma (first ▸ hk)]
    exact h.reaches owner a t rest closes steps (passes.remaining_lt rest (by simp) enough)
  | .keyed hl hcolon hv h, owner, a, t, c, d, passes, closes, steps + 1, enough => by
    obtain ⟨rfl, ahead, tail⟩ := Cursor.passes_cons_iff.1 passes
    obtain ⟨rfl, -, tail⟩ := Cursor.passes_cons_iff.1 tail
    obtain ⟨e, value, rest⟩ := Cursor.passes_append_iff.1 tail
    rw [items_keyed hl (c.next_eq_step ahead ▸ hcolon) hcolon]
    exact (hv.reaches owner a value).bind
      (h.reaches owner a _ rest closes steps (passes.remaining_lt rest (by grind) enough))
  | .pushed hv h, owner, a, t, c, d, passes, closes, steps + 1, enough => by
    obtain ⟨e, value, rest⟩ := Cursor.passes_append_iff.1 passes
    obtain ⟨u, us, rfl, opens, alone⟩ := hv.head
    obtain ⟨rfl, -⟩ := Cursor.passes_cons_iff.1 value
    -- a literal that is pushed is the whole item, and no item starts with the colon after a key
    have free : c.current.kind.isLiteral → c.next.kind ≠ .colon := by
      intro literal
      rw [alone literal] at value
      rw [value.next_eq]
      exact h.not_colon rest closes
    rw [items_pushed opens free]
    exact (hv.reaches owner a value).bind
      (h.reaches owner a _ rest closes steps (passes.remaining_lt rest (by grind) enough))
termination_by (n, 1, written.length, ts.length)

theorem MarkerType.DerivesAttributes.reaches {t : MarkerType} {n : Nat} {ts : List Token}
    {sets : List (String × Value)} :
    t.DerivesAttributes n ts sets → ∀ (a : Allowance) {m m' : Marker} {c d : Cursor},
      c.Passes ts d → m.type = t → m.setAll sets = .ok m' →
      Reaches n a (attributes t.rule? m a c) (m', d)
  | .list hk h hc, a, m, m', c, d, passes, type, hm => by
    obtain ⟨rfl, -, rest⟩ := Cursor.passes_cons_iff.1 passes
    obtain ⟨e, before, closing⟩ := Cursor.passes_append_iff.1 rest
    obtain ⟨rfl, -, hd⟩ := Cursor.passes_cons_iff.1 closing
    obtain rfl := Cursor.passes_nil_iff.1 hd
    rw [attributes, expect_eq_ok_iff.2 ⟨hk, rfl⟩]
    exact h.reaches a before hc type hm _ (Nat.lt_succ_self _)
termination_by (n, 2, 0, 0)

theorem MarkerType.DerivesEntries.reaches {t : MarkerType} {n : Nat} {ts : List Token}
    {sets : List (String × Value)} :
    t.DerivesEntries n ts sets → ∀ (a : Allowance) {m m' : Marker} {c d : Cursor},
      c.Passes ts d → d.current.kind = .parenClose → m.type = t → m.setAll sets = .ok m' →
      ∀ steps, c.remaining < steps → Reaches n a (entries t.rule? steps m a c) (m', d.step)
  | .nil, a, m, m', c, d, passes, closes, type, hm, steps + 1, enough => by
    obtain rfl := Cursor.passes_nil_iff.1 passes
    rw [entries_close closes]
    cases hm
    exact .ok
  | .comma hk h, a, m, m', c, d, passes, closes, type, hm, steps + 1, enough => by
    obtain ⟨first, -, rest⟩ := Cursor.passes_cons_iff.1 passes
    rw [entries_comma (first ▸ hk)]
    exact h.reaches a rest closes type hm steps (passes.remaining_lt rest (by simp) enough)
  | .entry hk hs hequals hv h, a, m, m', c, d, passes, closes, type, hm, steps + 1, enough => by
    obtain ⟨rfl, -, tail⟩ := Cursor.passes_cons_iff.1 passes
    obtain ⟨rfl, -, tail⟩ := Cursor.passes_cons_iff.1 tail
    obtain ⟨e, value, rest⟩ := Cursor.passes_append_iff.1 tail
    obtain ⟨m₁, hset, hm⟩ := (Marker.setAll_cons_eq_ok_iff ..).1 hm
    have rule := (MarkerType.rule?_eq t c.current.text).trans (by rw [hs, Option.map_some])
    rw [entries_entry hk]
    exact (Reaches.entry rule hequals (hv.reaches _ a value) hset).bind
      (h.reaches a rest closes ((Marker.type_of_set hset).trans type) hm steps
        (passes.remaining_lt rest (by grind) enough))
termination_by (n, 1, sets.length, ts.length)

end

/-- Under every allowance the rules read exactly what the grammar derives within it; where the
allowance does not stop them, exactly what the grammar derives at all. -/
theorem Rule.reads_exactly_derivations (a : Allowance) (c : Cursor) (ends : c.Ends) :
    (∀ (s : Shape) (owner : Owner) (v : Value) (d : Cursor),
      (s.rule owner a c = .ok (v, d) ↔ ∃ ts, c.Passes ts d ∧ s.Derives a.left ts v) ∧
      ((∀ limit span, s.rule owner a c ≠ .error ⟨.tooDeep limit, span⟩) →
        (s.rule owner a c = .ok (v, d) ↔ ∃ n ts, c.Passes ts d ∧ s.Derives n ts v))) ∧
    (∀ (m m' : Marker) (d : Cursor),
      (attributes m.type.rule? m a c = .ok (m', d) ↔
        ∃ ts sets, c.Passes ts d ∧ m.type.DerivesAttributes a.left ts sets ∧
          m.setAll sets = .ok m') ∧
      ((∀ limit span, attributes m.type.rule? m a c ≠ .error ⟨.tooDeep limit, span⟩) →
        (attributes m.type.rule? m a c = .ok (m', d) ↔
          ∃ n ts sets, c.Passes ts d ∧ m.type.DerivesAttributes n ts sets ∧
            m.setAll sets = .ok m'))) := by
  constructor
  · intro s owner v d
    refine ⟨⟨s.rule_sound owner ends, ?_⟩,
      fun shallow => ⟨fun h => ⟨_, s.rule_sound owner ends h⟩, ?_⟩⟩
    · intro ⟨ts, passes, derived⟩
      exact (derived.reaches owner a passes).ok_of_le (Nat.le_refl _)
    · intro ⟨n, ts, passes, derived⟩
      exact (derived.reaches owner a passes).ok_of_not_tooDeep shallow
  · intro m m' d
    refine ⟨⟨attributes_sound m.type.sound ends, ?_⟩,
      fun shallow => ⟨fun h => ⟨_, attributes_sound m.type.sound ends h⟩, ?_⟩⟩
    · intro ⟨ts, sets, passes, derived, hm⟩
      exact (derived.reaches a passes rfl hm).ok_of_le (Nat.le_refl _)
    · intro ⟨n, ts, sets, passes, derived, hm⟩
      exact (derived.reaches a passes rfl hm).ok_of_not_tooDeep shallow

theorem Rule.reads_exactly_derivations_keyed :
    (Cursor.ofTokens (Token.ofText "\x7ba: 1, b\x7d @" 0)).Ends ∧
      ∃ ts d, (Cursor.ofTokens (Token.ofText "\x7ba: 1, b\x7d @" 0)).Passes ts d ∧
        d.current.kind = .atSign ∧ (Shape.tableOf (.scalar .mixed)).Derives 1 ts
          (.table ⟨[(.string "a", .int 1), (.int 0, .string "b")], 1⟩) := by
  have ends := Cursor.ends_ofTokens (Token.ofText "\x7ba: 1, b\x7d @" 0)
  have run : ∃ d, (Shape.tableOf (.scalar .mixed)).rule ⟨"m", "k"⟩ ⟨1, 1⟩
      (Cursor.ofTokens (Token.ofText "\x7ba: 1, b\x7d @" 0)) =
        .ok (.table ⟨[(.string "a", .int 1), (.int 0, .string "b")], 1⟩, d) ∧
      d.current.kind = .atSign := ⟨_, by cbv, by cbv⟩
  obtain ⟨d, read, after⟩ := run
  obtain ⟨ts, passes, derived⟩ := ((reads_exactly_derivations ⟨1, 1⟩ _ ends).1 _ _ _ _).1.1 read
  exact ⟨ends, ts, d, passes, after, derived⟩

end DocMarks
