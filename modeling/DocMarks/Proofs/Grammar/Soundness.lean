import DocMarks.Proofs.Cursor
import DocMarks.Proofs.Grammar.Derivation
import DocMarks.Proofs.Rule

namespace DocMarks

open Rule

/-- What the rule reads is derived, within the levels it was allowed, from the tokens it passes. -/
def Rule.Sound {α : Type} (rule : Rule α) (derives : Nat → List Token → α → Prop) : Prop :=
  ∀ {a : Allowance} {c d : Cursor} {x : α}, c.Ends → rule a c = .ok (x, d) →
    ∃ ts, c.Passes ts d ∧ derives a.left ts x

theorem Cursor.Ends.passes_literal {c : Cursor} {l : Literal} (ends : c.Ends)
    (h : literalOf c.current = .ok l) : c.Passes [c.current] c.step := by
  refine ends.passes_step ?_
  intro finish
  simpa [finish, Token.Kind.isLiteral] using isLiteral_of_literalOf h

theorem Cursor.Ends.passes_name {c : Cursor} {name : String} (ends : c.Ends)
    (h : c.current.name? = some name) : c.Passes [c.current] c.step := by
  refine ends.passes_step ?_
  intro finish
  simp [Token.name?, finish] at h

theorem Rule.items_sound {s : Shape} {item : Rule Value} (sound : item.Sound s.Derives)
    (steps : Nat) {t t' : Table} {a : Allowance} {c d : Cursor} (ends : c.Ends)
    (h : items item steps t a c = .ok (t', d)) :
    ∃ ts closing written, c.Passes (ts ++ [closing]) d ∧ s.DerivesItems a.left ts written ∧
      closing.kind = .braceClose ∧ t' = t.writeAll written := by
  induction steps generalizing t c with
  | zero => simp [items] at h
  | succ steps ih =>
    unfold items at h
    split at h
    case h_1 hk =>
      simp only [Except.ok.injEq, Prod.mk.injEq] at h
      obtain ⟨rfl, rfl⟩ := h
      exact ⟨[], c.current, [], ends.passes_step (by simp [hk]), .nil, hk, rfl⟩
    case h_2 hk =>
      have first := ends.passes_step (by simp [hk])
      obtain ⟨ts, closing, written, rest, derived, hc, rfl⟩ := ih (first.ends ends) h
      exact ⟨c.current :: ts, closing, written, first.trans rest, .comma hk derived, hc, rfl⟩
    case h_3 =>
      split at h
      · simp only [bind_eq_ok_iff, expect_eq_ok_iff, Prod.exists, literal_eq_ok_iff] at h
        obtain ⟨l, _, ⟨hl, rfl⟩, _, ⟨hcolon, rfl⟩, v, e, hv, h⟩ := h
        have key := ends.passes_literal hl
        have colon := (key.ends ends).passes_step (by simp [hcolon])
        have ends' := colon.ends (key.ends ends)
        obtain ⟨us, value, dv⟩ := sound ends' hv
        obtain ⟨ts, closing, written, rest, derived, hc, rfl⟩ := ih (value.ends ends') h
        refine ⟨_, closing, _, ?_, .keyed hl hcolon dv derived, hc, rfl⟩
        simpa using key.trans (colon.trans (value.trans rest))
      · simp only [bind_eq_ok_iff, Prod.exists] at h
        obtain ⟨v, e, hv, h⟩ := h
        obtain ⟨us, value, dv⟩ := sound ends hv
        obtain ⟨ts, closing, written, rest, derived, hc, rfl⟩ := ih (value.ends ends) h
        refine ⟨_, closing, _, ?_, .pushed dv derived, hc, rfl⟩
        simpa using value.trans rest

def MarkerType.Sound (t : MarkerType) : Prop :=
  ∀ {key : String} {s : Shape} {owner : Owner}, t.shape? key = some s →
    (s.rule owner).Sound s.Derives

theorem Rule.entry_sound {t : MarkerType} (sound : t.Sound) {m m' : Marker} {a : Allowance}
    {c d : Cursor} (ends : c.Ends) (hk : c.current.kind = .name)
    (h : entry t.rule? m a c = .ok (m', d)) :
    ∃ key s equals us v, c.Passes (key :: equals :: us) d ∧ key.kind = .name ∧
      t.shape? key.text = some s ∧ equals.kind = .equals ∧ s.Derives a.left us v ∧
      m.set key.text v = .ok m' := by
  obtain ⟨value, v, hvalue, hequals, hv, hset⟩ := entry_eq_ok_iff.1 h
  rw [MarkerType.rule?_eq] at hvalue
  obtain ⟨s, hs, rfl⟩ := Option.map_eq_some_iff.1 hvalue
  have key := ends.passes_step (by simp [hk])
  have equals := (key.ends ends).passes_step (by simp [hequals])
  obtain ⟨us, value, derived⟩ := sound hs (equals.ends (key.ends ends)) hv
  exact ⟨_, s, _, us, v, key.trans (equals.trans value), hk, hs, hequals, derived, hset⟩

theorem Rule.entries_sound {t : MarkerType} (sound : t.Sound) (steps : Nat) {m m' : Marker}
    {a : Allowance} {c d : Cursor} (ends : c.Ends) (h : entries t.rule? steps m a c = .ok (m', d)) :
    ∃ ts closing sets, c.Passes (ts ++ [closing]) d ∧ t.DerivesEntries a.left ts sets ∧
      closing.kind = .parenClose ∧ m.setAll sets = .ok m' := by
  induction steps generalizing m c with
  | zero => simp [entries] at h
  | succ steps ih =>
    unfold entries at h
    split at h
    case h_1 hk =>
      simp only [Except.ok.injEq, Prod.mk.injEq] at h
      obtain ⟨rfl, rfl⟩ := h
      exact ⟨[], c.current, [], ends.passes_step (by simp [hk]), .nil, hk, rfl⟩
    case h_2 hk =>
      have first := ends.passes_step (by simp [hk])
      obtain ⟨ts, closing, sets, rest, derived, hc, hm⟩ := ih (first.ends ends) h
      exact ⟨c.current :: ts, closing, sets, first.trans rest, .comma hk derived, hc, hm⟩
    case h_3 hk =>
      simp only [bind_eq_ok_iff, Prod.exists] at h
      obtain ⟨n, e, he, h⟩ := h
      obtain ⟨key, s, equals, us, v, entry, hk, hs, hequals, dv, hset⟩ :=
        entry_sound sound ends hk he
      obtain ⟨ts, closing, sets, rest, derived, hc, hm⟩ := ih (entry.ends ends) h
      refine ⟨_, closing, _, ?_, .entry hk hs hequals dv derived, hc,
        (Marker.setAll_cons_eq_ok_iff ..).2 ⟨n, hset, hm⟩⟩
      simpa using entry.trans rest
    case h_4 => simp at h

theorem Rule.attributes_sound {t : MarkerType} (sound : t.Sound) {m m' : Marker} {a : Allowance}
    {c d : Cursor} (ends : c.Ends) (h : attributes t.rule? m a c = .ok (m', d)) :
    ∃ ts sets, c.Passes ts d ∧ t.DerivesAttributes a.left ts sets ∧ m.setAll sets = .ok m' := by
  obtain ⟨hk, h⟩ := attributes_eq_ok_iff.1 h
  have opening := ends.passes_step (by simp [hk])
  obtain ⟨ts, closing, sets, rest, derived, hc, hm⟩ := entries_sound sound _ (opening.ends ends) h
  exact ⟨_, sets, opening.trans rest, .list hk derived hc, hm⟩

theorem Rule.tagged_sound {t : MarkerType} (sound : t.Sound) {owner : Owner} :
    (nested (tagged t t.rule? owner)).Sound (Shape.marker t).Derives := by
  intro a c d v ends h
  obtain ⟨n, hn, h⟩ := nested_eq_ok_iff.1 h
  obtain ⟨e, m, htag, hm, rfl⟩ := tagged_eq_ok_iff.1 h
  rw [hn]
  rcases tag_eq_ok_iff.1 htag with ⟨hsign, hname, rfl⟩ | ⟨-, rfl⟩
  · have sign := ends.passes_step (by simp [hsign])
    have name := (sign.ends ends).passes_name hname
    obtain ⟨ts, sets, rest, derived, hset⟩ := attributes_sound sound (name.ends (sign.ends ends)) hm
    exact ⟨_, sign.trans (name.trans rest), .tagged hsign hname derived hset⟩
  · obtain ⟨ts, sets, rest, derived, hset⟩ := attributes_sound sound ends hm
    exact ⟨ts, rest, .untagged derived hset⟩

theorem Shape.rule_sound (s : Shape) (owner : Owner) : (s.rule owner).Sound s.Derives := by
  induction s using Shape.induction generalizing owner with
  | scalar kind =>
    intro a c d v ends h
    rw [Shape.rule] at h
    obtain ⟨l, hl, hv, rfl⟩ := scalar_eq_ok_iff.1 h
    exact ⟨[c.current], ends.passes_literal hl, .scalar hl hv⟩
  | marker t ih =>
    rw [Shape.rule]
    exact tagged_sound fun hs => ih _ (Entries.mem_of_get? hs) _
  | tableOf s ih =>
    intro a c d v ends h
    rw [Shape.rule] at h
    obtain ⟨n, hn, h⟩ := nested_eq_ok_iff.1 h
    obtain ⟨hk, t, ht, rfl⟩ := table_eq_ok_iff.1 h
    have opening := ends.passes_step (by simp [hk])
    obtain ⟨ts, closing, written, rest, derived, hc, rfl⟩ :=
      items_sound (ih owner) _ (opening.ends ends) ht
    rw [hn]
    exact ⟨_, opening.trans rest, .table hk derived hc⟩

theorem MarkerType.sound (t : MarkerType) : t.Sound := fun _ => Shape.rule_sound _ _

theorem Rule.marker?_step_ahead {v : Vocabulary} {a : Allowance} {c d : Cursor} {m? : Option Marker}
    (ends : c.Ends) (h : marker? v a c = .ok (m?, d)) : c.step.Ahead d := by
  rcases marker?_eq_ok_iff.1 h with ⟨-, -, rfl⟩ | ⟨name, -, ⟨-, -, rfl⟩ | ⟨t, -, h⟩⟩
  · exact .refl _
  · exact c.step.ahead_step
  · rcases h with ⟨-, -, rfl⟩ | ⟨m, -, -, h⟩
    · exact c.step.ahead_step
    · obtain ⟨n, -, h⟩ := nested_eq_ok_iff.1 h
      obtain ⟨ts, sets, passes, -⟩ := attributes_sound t.sound ends.step.step h
      exact c.step.ahead_step.trans passes.ahead

theorem Rule.marker?_ahead {v : Vocabulary} {a : Allowance} {c d : Cursor} {m? : Option Marker}
    (ends : c.Ends) (h : marker? v a c = .ok (m?, d)) : c.Ahead d :=
  c.ahead_step.trans (marker?_step_ahead ends h)

theorem Rule.forall_markers_ahead {v : Vocabulary} {a : Allowance} {P : Marker → Prop} (steps : Nat)
    {c : Cursor} {ms : List Marker}
    (one : ∀ {c' d m}, c.Ahead c' → c'.Ends → marker? v a c' = .ok (some m, d) → P m)
    (ends : c.Ends) (h : markers v a steps c = .ok ms) : ∀ m ∈ ms, P m := by
  induction steps generalizing c ms with
  | zero =>
    cases h
    simp
  | succ steps ih =>
    have later {d : Cursor} (ahead : c.Ahead d) {ns : List Marker}
        (hns : markers v a steps d = .ok ns) : ∀ m ∈ ns, P m :=
      ih (fun further => one (ahead.trans further)) (ahead.ends ends) hns
    rcases markers_succ_eq_ok h with ⟨-, rfl⟩ | h | ⟨m?, d, ms', -, -, hm, hms, rfl⟩
    · simp
    · exact later c.ahead_step h
    · intro m mem
      cases List.mem_append.1 mem with
      | inl mem =>
        obtain rfl := Option.mem_toList.1 mem
        exact one (.refl c) ends hm
      | inr mem => exact later (marker?_ahead ends hm) hms m mem

theorem Rule.forall_markers {v : Vocabulary} {a : Allowance} {P : Marker → Prop}
    (one : ∀ {c d m}, c.Ends → marker? v a c = .ok (some m, d) → P m) (steps : Nat) {c : Cursor}
    {ms : List Marker} (ends : c.Ends) (h : markers v a steps c = .ok ms) : ∀ m ∈ ms, P m :=
  forall_markers_ahead steps (fun _ => one) ends h

theorem Dialect.forall_mem_markers {d : Dialect} {body : String} {ms : List Marker} {P : Marker → Prop}
    (one : ∀ {r c e m}, Region.ofBody? body = some r →
      (Cursor.ofTokens (Token.scan r.start r.text)).Ahead c → c.Ends →
      Rule.marker? d.vocabulary d.allowance c = .ok (some m, e) → P m)
    (h : d.markers body = .ok ms) : ∀ m ∈ ms, P m := by
  cases known : d.vocabulary.isEmpty with
  | true => simp [markers, known] at h
  | false =>
    cases region : Region.ofBody? body with
    | none =>
      rw [markers_of_none known region] at h
      cases h
      simp
    | some r =>
      exact Rule.forall_markers_ahead _ (one region) (Cursor.ends_ofTokens _)
        ((markers_eq_ok_iff known region).1 h)

end DocMarks
