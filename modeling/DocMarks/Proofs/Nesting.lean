import DocMarks.Proofs.Diagnostics
import DocMarks.Proofs.Value.Writable

/-! How many levels a comment needs. The limit is looked at in one place only, so a reading that it
does not stop is the same under every higher limit, and the shapes bound the levels that any text can
open. -/

namespace DocMarks

open Rule

mutual

def Shape.need : Shape → Nat
  | .scalar _ => 0
  | .tableOf s => s.need + 1
  | .marker t => t.need
termination_by structural s => s

def MarkerType.need : MarkerType → Nat
  | ⟨_, attributes⟩ => Shape.needWithin attributes + 1
termination_by structural t => t

def Shape.needWithin : List (String × Shape) → Nat
  | [] => 0
  | (_, s) :: rest => max s.need (Shape.needWithin rest)
termination_by structural as => as

end

def Vocabulary.height (v : Vocabulary) : Nat := (v.types.map MarkerType.need).foldr max 0

theorem Shape.need_le_needWithin {attributes : List (String × Shape)} {a : String × Shape}
    (h : a ∈ attributes) : a.2.need ≤ Shape.needWithin attributes := by
  induction h with
  | head => exact Nat.le_max_left ..
  | tail _ _ ih => exact Nat.le_trans ih (Nat.le_max_right ..)

theorem MarkerType.need_eq (t : MarkerType) : t.need = Shape.needWithin t.attributes + 1 := by
  cases t
  rfl

theorem Vocabulary.need_le_height {v : Vocabulary} {name : String} {t : MarkerType}
    (h : v.lookup? name = some t) : t.need ≤ v.height := by
  obtain ⟨mem, -⟩ := (v.lookup?_eq_some_iff name t).1 h
  rw [Vocabulary.height]
  generalize v.types = types at mem
  induction mem with
  | head => exact Nat.le_max_left ..
  | tail _ _ ih => exact Nat.le_trans ih (Nat.le_max_right ..)

variable {α β : Type}

def Rule.Exhausted (outcome : Except Fault.Located α) : Prop :=
  ∃ limit span, outcome = .error ⟨.tooDeep limit, span⟩

theorem Rule.not_exhausted_ok (x : α) : ¬ Exhausted (.ok x) := by
  rintro ⟨_, _, h⟩
  cases h

theorem Rule.exhausted_bind_iff {x : Except Fault.Located α} {f : α → Except Fault.Located β} :
    Exhausted (x >>= f) ↔ Exhausted x ∨ ∃ a, x = .ok a ∧ Exhausted (f a) := by
  cases x with
  | error l => simp [Exhausted, bind, Except.bind]
  | ok a => simp [Exhausted, bind, Except.bind]

theorem Rule.not_exhausted_of_names {x : Except Fault.Located α} {t : Token}
    (h : ∀ l limit, x = .error l → l.Names limit t) : ¬ Exhausted x := by
  rintro ⟨limit, span, hx⟩
  have names := (h _ (limit + 1) hx).2
  simp only at names
  omega

/-- An outcome under every allowance: `need` levels never run out, and an allowance that did not
run out gives the same outcome as every larger one. -/
structure Rule.Settles (need : Nat) (outcome : Allowance → Except Fault.Located α) : Prop where
  enough : ∀ a, need ≤ a.left → ¬ Exhausted (outcome a)
  steady : ∀ a b, a.left ≤ b.left → ¬ Exhausted (outcome a) → outcome b = outcome a

namespace Rule.Settles

variable {n : Nat} {outcome : Allowance → Except Fault.Located α}

theorem const {x : Except Fault.Located α} (h : ¬ Exhausted x) : Settles n fun _ => x :=
  ⟨fun _ _ => h, fun _ _ _ _ => rfl⟩

theorem ok (x : α) : Settles n fun _ => .ok x := const (not_exhausted_ok x)

theorem mono {m : Nat} (h : Settles n outcome) (le : n ≤ m) : Settles m outcome :=
  ⟨fun a enough => h.enough a (Nat.le_trans le enough), h.steady⟩

theorem bind {f : Allowance → α → Except Fault.Located β} (first : Settles n outcome)
    (rest : ∀ r, Settles n (f · r)) : Settles n fun a => outcome a >>= f a where
  enough a enough := by
    rw [exhausted_bind_iff]
    rintro (h | ⟨r, -, h⟩)
    · exact first.enough a enough h
    · exact (rest r).enough a enough h
  steady a b le h := by
    rw [exhausted_bind_iff, not_or] at h
    rw [first.steady a b le h.1]
    cases hr : outcome a with
    | error l => rfl
    | ok r => exact (rest r).steady a b le fun exhausted => h.2 ⟨r, hr, exhausted⟩

theorem nested {rule : Rule α} {c : Cursor} (h : Settles n (rule · c)) :
    Settles (n + 1) (Rule.nested rule · c) where
  enough a enough := by
    rw [Rule.nested.eq_def]
    split
    case h_1 none => omega
    case h_2 left some => exact h.enough ⟨a.limit, left⟩ (by simp only; omega)
  steady a b le shallow := by
    rw [Rule.nested.eq_def] at shallow ⊢
    rw [Rule.nested.eq_def]
    cases ha : a.left with
    | zero =>
      simp only [ha] at shallow
      exact absurd ⟨_, _, rfl⟩ shallow
    | succ left =>
      obtain ⟨left', hb⟩ := Nat.exists_eq_add_of_lt (Nat.lt_of_lt_of_le (by omega : 0 < a.left) le)
      simp only [ha] at shallow
      simp only [hb]
      exact h.steady ⟨a.limit, left⟩ ⟨b.limit, _⟩ (by simp only; omega) shallow

theorem expect (kind : Token.Kind) (c : Cursor) : Settles n fun _ => Rule.expect kind c :=
  const (not_exhausted_of_names fun _ limit => expect_blames limit)

theorem literal (c : Cursor) : Settles n fun _ => Rule.literal c :=
  const (not_exhausted_of_names fun _ limit => literal_blames limit)

theorem tag (name : String) (owner : Owner) (c : Cursor) :
    Settles n fun _ => Rule.tag name owner c :=
  const (not_exhausted_of_names fun _ limit => tag_blames limit)

theorem scalar (kind : ScalarKind) (owner : Owner) (c : Cursor) :
    Settles n (Rule.scalar kind owner · c) := by
  refine (literal c).bind fun (l, d) => const ?_
  simp only
  split
  · exact not_exhausted_ok _
  · simp [Exhausted]

theorem items {item : Rule Value} (h : ∀ c, Settles n (item · c)) (steps : Nat) (t : Table)
    (c : Cursor) : Settles n (Rule.items item steps t · c) := by
  induction steps generalizing t c with
  | zero => exact const (by simp [Exhausted, Fault.unexpectedToken])
  | succ steps ih =>
    by_cases close : c.current.kind = .braceClose
    · simp only [items_close close]
      exact ok _
    by_cases comma : c.current.kind = .comma
    · simp only [items_comma comma]
      exact ih t c.step
    by_cases key : c.current.kind.isLiteral ∧ c.next.kind = .colon
    · simp only [items_key key.1 key.2]
      exact (literal c).bind fun l => (expect .colon l.2).bind fun d =>
        (h d).bind fun v => ih (t.insert l.1.toKey v.1) v.2
    · simp only [items_value close comma fun literal colon => key ⟨literal, colon⟩]
      exact (h c).bind fun v => ih (t.push v.1) v.2

theorem table {item : Rule Value} (h : ∀ c, Settles n (item · c)) (c : Cursor) :
    Settles n (Rule.table item · c) :=
  (expect .braceOpen c).bind fun d => (items h _ {} d).bind fun _ => ok _

section Attributes

variable {t : MarkerType}
  (h : ∀ {key s}, t.shape? key = some s → ∀ owner c, Settles n ((s.rule owner) · c))

include h

theorem entry (m : Marker) (c : Cursor) : Settles n (Rule.entry t.rule? m · c) := by
  simp only [Rule.entry, MarkerType.rule?_eq]
  cases hs : t.shape? c.current.text with
  | none => exact const (by simp [Exhausted])
  | some s =>
    refine (expect .equals c.step).bind fun d => (h hs _ d).bind fun r => const ?_
    split
    · exact not_exhausted_ok _
    · simp [Exhausted]

theorem entries (steps : Nat) (m : Marker) (c : Cursor) :
    Settles n (Rule.entries t.rule? steps m · c) := by
  induction steps generalizing m c with
  | zero => exact const (by simp [Exhausted, Fault.unexpectedToken])
  | succ steps ih =>
    by_cases close : c.current.kind = .parenClose
    · simp only [entries_close close]
      exact ok _
    by_cases comma : c.current.kind = .comma
    · simp only [entries_comma comma]
      exact ih m c.step
    by_cases name : c.current.kind = .name
    · simp only [entries_entry name]
      exact (entry h m c).bind fun m => ih m.1 m.2
    · simp only [entries_other close comma name]
      exact const (by simp [Exhausted, Fault.unexpectedToken])

theorem attributes (m : Marker) (c : Cursor) : Settles n (Rule.attributes t.rule? m · c) :=
  (expect .parenOpen c).bind fun d => entries h _ m d

theorem tagged (owner : Owner) (c : Cursor) : Settles n (Rule.tagged t t.rule? owner · c) :=
  (tag t.name owner c).bind fun d => (attributes h (.fresh t) d).bind fun _ => ok _

end Attributes

end Rule.Settles

theorem Shape.rule_settles (s : Shape) (owner : Owner) (c : Cursor) :
    Settles s.need ((s.rule owner) · c) := by
  induction s using Shape.induction generalizing owner c with
  | scalar kind =>
    simp only [Shape.rule]
    exact .scalar kind owner c
  | marker t ih =>
    simp only [Shape.rule, Shape.need, MarkerType.need_eq]
    apply Settles.nested
    apply Settles.tagged
    intro key s hs owner c
    have mem := Entries.mem_of_get? hs
    exact (ih _ mem owner c).mono (Shape.need_le_needWithin mem)
  | tableOf s ih =>
    simp only [Shape.rule]
    exact (Settles.table (ih owner) c).nested

theorem MarkerType.attributes_settles (t : MarkerType) (m : Marker) (c : Cursor) :
    Settles t.need (Rule.nested (Rule.attributes t.rule? m) · c) := by
  rw [t.need_eq]
  apply Settles.nested
  apply Settles.attributes
  intro key s hs owner c
  exact (s.rule_settles owner c).mono (Shape.need_le_needWithin (Entries.mem_of_get? hs))

theorem Rule.marker?_settles (v : Vocabulary) (c : Cursor) :
    Settles v.height (marker? v · c) := by
  simp only [marker?]
  cases c.step.current.name? with
  | none => exact .ok _
  | some name =>
    simp only
    cases ht : v.lookup? name with
    | none => exact .ok _
    | some t =>
      simp only
      split
      · exact ((t.attributes_settles (.fresh t) _).mono (v.need_le_height ht)).bind fun _ => .ok _
      · exact .ok _

theorem Rule.markers_settles (v : Vocabulary) (steps : Nat) (c : Cursor) :
    Settles v.height (markers v · steps c) := by
  induction steps generalizing c with
  | zero => exact .ok _
  | succ steps ih =>
    by_cases finish : c.current.kind = .finish
    · simp only [markers_finished finish]
      exact .ok _
    by_cases sign : c.current.kind = .atSign ∧ ¬ c.isGlued
    · simp only [markers_sign sign.1 sign.2]
      exact (marker?_settles v c).bind fun r => (ih r.2).bind fun _ => .ok _
    · simp only [markers_text finish sign]
      exact ih c.step

theorem Rule.Settles.threshold {need : Nat} {outcome : Allowance → Except Fault.Located α}
    (h : Settles need outcome) :
    ∃ least ≤ need, (∀ n < least, Exhausted (outcome ⟨n, n⟩)) ∧
      ∀ n, least ≤ n → ¬ Exhausted (outcome ⟨n, n⟩) ∧ outcome ⟨n, n⟩ = outcome ⟨least, least⟩ := by
  classical
  have suffices_ : ∃ n, ¬ Exhausted (outcome ⟨n, n⟩) := ⟨need, h.enough _ (Nat.le_refl _)⟩
  have shallow := Nat.find_spec suffices_
  refine ⟨Nat.find suffices_, Nat.find_min' _ (h.enough _ (Nat.le_refl _)), ?_, ?_⟩
  · intro n few
    exact not_not.1 (Nat.find_min suffices_ few)
  · intro n le
    have same := h.steady ⟨_, _⟩ ⟨n, n⟩ le shallow
    exact ⟨same ▸ shallow, same⟩

theorem Marker.depth_le_of_setAll {t : MarkerType} {sets : List (String × Value)} {m : Marker}
    {n : Nat} (h : (Marker.fresh t).setAll sets = .ok m) (depth : ∀ e ∈ sets, e.2.depth ≤ n) :
    m.depth ≤ n + 1 :=
  depth_le_succ_iff.2 (forall_setAll (P := fun e => e.2.depth ≤ n) h (by simp [fresh]) depth).2

theorem Literal.depth_of_coerce {l : Literal} {text : String} {kind : ScalarKind} {v : Value}
    (h : l.coerce text kind = .ok v) : v.depth = 0 := by
  cases Literal.conforms_of_coerce h with
  | mixed scalar => cases v <;> first | rfl | cases scalar
  | _ => rfl

mutual

theorem Shape.Derives.depth_le {s : Shape} {n : Nat} {ts : List Token} {v : Value} :
    s.Derives n ts v → v.depth ≤ n
  | .scalar _ hv => Nat.le_trans (Nat.le_of_eq (Literal.depth_of_coerce hv)) (Nat.zero_le _)
  | .table _ items _ =>
    Table.depth_le_succ_iff.2 (Table.forall_writeAll (P := fun v => v.depth ≤ _) _ {}
      (fun _ h => nomatch h) items.depth_le)
  | .untagged h hm => Marker.depth_le_of_setAll hm h.depth_le
  | .tagged _ _ h hm => Marker.depth_le_of_setAll hm h.depth_le

theorem Shape.DerivesItems.depth_le {s : Shape} {n : Nat} {ts : List Token}
    {written : List (Option Key × Value)} :
    s.DerivesItems n ts written → ∀ i ∈ written, i.2.depth ≤ n
  | .nil => fun _ h => nomatch h
  | .comma _ h => h.depth_le
  | .keyed _ _ hv h => List.forall_mem_cons.2 ⟨hv.depth_le, h.depth_le⟩
  | .pushed hv h => List.forall_mem_cons.2 ⟨hv.depth_le, h.depth_le⟩

theorem MarkerType.DerivesAttributes.depth_le {t : MarkerType} {n : Nat} {ts : List Token}
    {sets : List (String × Value)} :
    t.DerivesAttributes n ts sets → ∀ e ∈ sets, e.2.depth ≤ n
  | .list _ h _ => h.depth_le

theorem MarkerType.DerivesEntries.depth_le {t : MarkerType} {n : Nat} {ts : List Token}
    {sets : List (String × Value)} :
    t.DerivesEntries n ts sets → ∀ e ∈ sets, e.2.depth ≤ n
  | .nil => fun _ h => nomatch h
  | .comma _ h => h.depth_le
  | .entry _ _ _ hv h => List.forall_mem_cons.2 ⟨hv.depth_le, h.depth_le⟩

end

/-- How deep a marker nests in a comment: without attributes it opens no level. -/
def Marker.nesting (m : Marker) : Nat := if m.attributes.isEmpty then 0 else m.depth

theorem Rule.marker?_nesting {v : Vocabulary} {a : Allowance} {c d : Cursor} {m : Marker}
    (ends : c.Ends) (h : marker? v a c = .ok (some m, d)) : m.nesting ≤ a.left := by
  rcases marker?_eq_ok_iff.1 h with ⟨-, h, -⟩ | ⟨name, -, ⟨-, h, -⟩ | ⟨t, known, h⟩⟩
  · cases h
  · cases h
  · rcases h with ⟨-, h, -⟩ | ⟨m, -, h, hm⟩
    · cases h
      exact Nat.zero_le _
    · cases h
      obtain ⟨n, left, hm⟩ := nested_eq_ok_iff.1 hm
      obtain ⟨ts, sets, -, derived, hset⟩ := attributes_sound t.sound ends.step.step hm
      have depth := Marker.depth_le_of_setAll hset derived.depth_le
      rw [Marker.nesting]
      split
      · exact Nat.zero_le _
      · exact left ▸ depth

namespace Dialect

variable (v : Vocabulary) (ts : List Token)

theorem markersOf_threshold :
    ∃ least ≤ v.height,
      (∀ n < least, ∃ span, markersOf ⟨v, ⟨n⟩⟩ ts = .error ⟨.tooDeep n, span⟩) ∧
      ∀ n, least ≤ n → ¬ Exhausted (markersOf ⟨v, ⟨n⟩⟩ ts) ∧
        markersOf ⟨v, ⟨n⟩⟩ ts = markersOf ⟨v, ⟨least⟩⟩ ts := by
  obtain ⟨least, le, few, many⟩ := (markers_settles v _ (Cursor.ofTokens ts)).threshold
  refine ⟨least, le, ?_, many⟩
  intro n hn
  obtain ⟨limit, span, exhausted⟩ := few n hn
  obtain ⟨t, -, -, rfl⟩ := markers_blames _ (Cursor.ends_ofTokens ts) exhausted
  exact ⟨span, exhausted⟩

theorem markersOf_nesting {n : Nat} {ms : List Marker} (h : markersOf ⟨v, ⟨n⟩⟩ ts = .ok ms) :
    ∀ m ∈ ms, m.nesting ≤ n :=
  forall_markers marker?_nesting _ (Cursor.ends_ofTokens ts) h

/-- For every comment there is a least limit, which the vocabulary bounds. Under each lower one
reading stops at the limit; under this and every higher one it gives the same, which is not stopped
and nests no deeper. -/
theorem read_limit_sharp (known : v.isEmpty = false) (body : String) :
    ∃ least ≤ v.height,
      (∀ n < least, ∃ span, read ⟨v, ⟨n⟩⟩ body = .error (.fault ⟨.tooDeep n, span⟩ body)) ∧
      (∀ n n', least ≤ n → least ≤ n' → read ⟨v, ⟨n⟩⟩ body = read ⟨v, ⟨n'⟩⟩ body) ∧
      (∀ n, least ≤ n → ∀ limit span text,
        read ⟨v, ⟨n⟩⟩ body ≠ .error (.fault ⟨.tooDeep limit, span⟩ text)) ∧
      ∀ n f, least ≤ n → read ⟨v, ⟨n⟩⟩ body = .ok f →
        ∀ e ∈ f.entries, ∀ m ∈ e.2.markers, m.nesting ≤ least := by
  cases region : Region.ofBody? body with
  | none =>
    have empty : ∀ n, read ⟨v, ⟨n⟩⟩ body = .ok {} := fun n =>
      read_eq_ok_iff.2 ⟨[], markers_of_none known region, rfl⟩
    refine ⟨0, Nat.zero_le _, fun n few => absurd few (Nat.not_lt_zero n), ?_, ?_, ?_⟩
    · intro n n' _ _
      rw [empty, empty]
    · intro n _ limit span text
      simp [empty]
    · intro n f _ h
      rw [empty] at h
      cases h
      exact fun _ he => nomatch he
  | some r =>
    obtain ⟨least, le, few, many⟩ := markersOf_threshold v (Token.scan r.start r.text)
    refine ⟨least, le, ?_, ?_, ?_, ?_⟩
    · intro n hn
      obtain ⟨span, exhausted⟩ := few n hn
      exact ⟨span, read_eq_error_iff.2 ((markers_eq_error_iff known region).2 ⟨_, exhausted, rfl⟩)⟩
    · intro n n' hn hn'
      rw [read, read, markers_of_region known region, markers_of_region known region,
        (many n hn).2, (many n' hn').2]
    · intro n hn limit span text h
      obtain ⟨l, exhausted, hl⟩ := (markers_eq_error_iff known region).1 (read_eq_error_iff.1 h)
      cases hl
      exact (many n hn).1 ⟨limit, span, exhausted⟩
    · intro n f hn h
      obtain ⟨ms, hms, rfl⟩ := read_eq_ok_iff.1 h
      rw [markers_eq_ok_iff known region, (many n hn).2] at hms
      exact Findings.forall_ofMarkers (markersOf_nesting v _ hms)

theorem read_limit_sharp_matrix :
    ∃ (v : Vocabulary) (f : Findings), v.isEmpty = false ∧ v.height = 4 ∧
      (∀ n < 3, ∃ span, read ⟨v, ⟨n⟩⟩ "@p(k = \x7b\x7b\x7d\x7d)" =
        .error (.fault ⟨.tooDeep n, span⟩ "@p(k = \x7b\x7b\x7d\x7d)")) ∧
      (∀ n, 3 ≤ n → read ⟨v, ⟨n⟩⟩ "@p(k = \x7b\x7b\x7d\x7d)" = .ok f) ∧
      f.entries.map (fun e => e.2.markers.map Marker.nesting) = [[3]] := by
  let v : Vocabulary := ⟨[⟨"p", [("k", .tableOf (.tableOf (.marker ⟨"q", []⟩)))]⟩], by simp⟩
  have stopped : read ⟨v, ⟨2⟩⟩ "@p(k = \x7b\x7b\x7d\x7d)" =
      .error (.fault ⟨.tooDeep 2, ⟨8, 9⟩⟩ "@p(k = \x7b\x7b\x7d\x7d)") := by cbv
  have found : ∃ f, read ⟨v, ⟨3⟩⟩ "@p(k = \x7b\x7b\x7d\x7d)" = .ok f ∧
      f.entries.map (fun e => e.2.markers.map Marker.nesting) = [[3]] := ⟨_, by cbv, by cbv⟩
  obtain ⟨f, found, nesting⟩ := found
  obtain ⟨least, -, few, same, shallow, -⟩ :=
    read_limit_sharp v rfl "@p(k = \x7b\x7b\x7d\x7d)"
  have most : least ≤ 3 := by
    by_contra more
    obtain ⟨span, h⟩ := few 3 (by omega)
    rw [found] at h
    cases h
  have fewest : 3 ≤ least := by
    by_contra less
    exact shallow 2 (by omega) _ _ _ stopped
  refine ⟨v, f, rfl, by decide, fun n hn => few n (by omega), fun n hn => ?_, nesting⟩
  rw [same n 3 (by omega) most, found]

end Dialect
end DocMarks
