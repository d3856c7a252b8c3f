import DocMarks.Proofs.Machine.Fuel

namespace DocMarks

theorem Cursor.length_finished_le (ts : List Token) : (finished ts).length ≤ ts.length + 1 := by
  rw [finished]
  split
  · simp
  · split <;> simp

namespace Machine

variable {M : Machine} {s : State}

def cursor (M : Machine) (s : State) : Cursor where
  behind := (M.tokens.take s.index).reverse
  current := M.tokens[s.index]?.getD (.finishAt 0)
  ahead := M.tokens.drop (s.index + 1)

def allowance (M : Machine) (s : State) : Allowance := ⟨M.limit, M.limit - s.depth⟩

theorem Valid.at_cursor (valid : M.Valid) (ends : ∀ t ∈ M.tokens.getLast?, t.kind = .finish)
    (inside : s.index < M.tokens.length) (depth : s.depth ≤ M.limit) :
    M.At (M.allowance s) s (M.cursor s) := by
  have tokens : M.tokens = (M.cursor s).behind.reverse ++ (M.cursor s).upcoming := by
    simp [cursor, Cursor.upcoming, inside]
  have index : s.index = (M.cursor s).position := by
    rw [Cursor.position, cursor, List.length_reverse, List.length_take, Nat.min_eq_left inside.le]
  have last : (M.cursor s).Ends := by
    rw [tokens, List.getLast?_append, Cursor.upcoming, List.getLast?_cons, Option.some_or] at ends
    rwa [Cursor.Ends, Cursor.upcoming, List.getLast?_cons]
  exact ⟨valid, tokens, index, Nat.add_sub_cancel' depth, rfl, last⟩

def ofTokens (ts : List Token) (limit : Nat) : Machine where
  toChecks := .trusting
  tokens := Cursor.finished ts
  limit := limit

theorem valid_ofTokens (ts : List Token) (limit : Nat) : (ofTokens ts limit).Valid where
  texts _ _ := rfl
  quotes _ _ _ := rfl
  counts _ _ := rfl

def ofSource (source : String) (ts : List Token) (limit : Nat) : Machine where
  toChecks := .against source
  tokens := Cursor.finished ts
  limit := limit

theorem valid_ofSource {body : String} {r : Region} {limit : Nat}
    (region : Region.ofBody? body = some r) (bounded : limit < UInt64.size) :
    (ofSource body (Token.scan r.start r.text) limit).Valid where
  texts t mem := by
    rw [ofSource, Token.finished_scan] at mem
    exact Text.slice?_eq_some_iff.2 (Token.holds_of_mem_scan region mem)
  quotes t mem := by
    rw [ofSource, Token.finished_scan] at mem
    exact Token.unquote?_of_mem_scan mem
  counts n below := if_pos (Nat.lt_of_le_of_lt below bounded)

theorem Valid.at_start {ts : List Token} (valid : M.Valid) (tokens : M.tokens = Cursor.finished ts) :
    M.At ⟨M.limit, M.limit⟩ ⟨0, 0⟩ (.ofTokens ts) where
  toValid := valid
  tokens := by rw [tokens, Cursor.behind_ofTokens, Cursor.upcoming_ofTokens]; rfl
  index := by rw [Cursor.position, Cursor.behind_ofTokens]; rfl
  depth := Nat.zero_add _
  limit := rfl
  ends := Cursor.ends_ofTokens ts

end Machine

open Machine in
/-- Reading makes progress at every place among any tokens, with any brackets open. Fuel of two units
a token and two more is never used up, and the machine that has it finds the markers that the rules
find. -/
theorem Dialect.markersOf_progresses (d : Dialect) (ts : List Token) (fuel : Nat)
    (enough : 2 * ts.length + 2 ≤ fuel) :
    let M := Machine.ofTokens ts d.limits.maxDepth
    (∀ s : State, s.index < M.tokens.length → s.depth ≤ M.limit →
      M.Progressive d.vocabulary fuel (M.allowance s) s (M.cursor s)) ∧
    ∃ s, State.LeadsTo ⟨0, 0⟩ s ∧
      outcome (M.markers fuel d.vocabulary []) ⟨0, 0⟩ = some (d.markersOf ts, s) := by
  intro M
  have valid : M.Valid := valid_ofTokens ts d.limits.maxDepth
  have few : M.tokens.length ≤ ts.length + 1 := Cursor.length_finished_le ts
  constructor
  · intro s inside depth
    have ends := Cursor.ends_ofTokens ts
    rw [Cursor.Ends, Cursor.upcoming_ofTokens] at ends
    have here := valid.at_cursor ends inside depth
    have := here.length_eq
    exact here.progressive (by omega) d.vocabulary
  · exact (valid.at_start rfl).outcome_markers (by omega)

open Machine in
theorem Dialect.markersOf_progresses_ended_midway :
    ∃ (d : Dialect) (ts : List Token) (m : Marker) (t : Table) (s : State),
      let M := Machine.ofTokens ts d.limits.maxDepth
      ts.map Token.kind = [.atSign, .name, .parenOpen, .name, .equals, .braceOpen, .integer,
        .colon, .integer, .braceClose, .parenClose, .finish, .atSign] ∧
      2 * ts.length + 2 ≤ 28 ∧ 6 < M.tokens.length ∧ 2 ≤ M.limit ∧
      M.Progressive d.vocabulary 28 (M.allowance ⟨6, 2⟩) ⟨6, 2⟩ (M.cursor ⟨6, 2⟩) ∧
      outcome (M.markers 28 d.vocabulary []) ⟨0, 0⟩ = some (.ok [m], s) ∧
      m.get? "k" = some (.table t) ∧ t.keys = [.int 3] := by
  let d : Dialect := ⟨⟨[⟨"t", [("k", .tableOf (.scalar .integer))]⟩], by simp⟩, ⟨2⟩⟩
  have found : ∃ (ts : List Token) (m : Marker) (t : Table),
      ts.map Token.kind = [.atSign, .name, .parenOpen, .name, .equals, .braceOpen, .integer,
        .colon, .integer, .braceClose, .parenClose, .finish, .atSign] ∧
      6 < (Cursor.finished ts).length ∧
      d.markersOf ts = .ok [m] ∧ m.get? "k" = some (.table t) ∧ t.keys = [.int 3] :=
    ⟨Token.ofText "@t(k=\x7b3:4\x7d)" 0 ++ [⟨.atSign, "@", ⟨12, 13⟩⟩], _, _, by decide, by decide,
      by cbv, by cbv, by cbv⟩
  obtain ⟨ts, m, t, kinds, inside, found, table, keys⟩ := found
  have length : 2 * ts.length + 2 ≤ 28 := by
    rw [← List.length_map (f := Token.kind), kinds]
    decide
  obtain ⟨places, s, -, run⟩ := markersOf_progresses d ts 28 length
  rw [found] at run
  exact ⟨d, ts, m, t, s, kinds, length, inside, Nat.le_refl 2,
    places ⟨6, 2⟩ inside (Nat.le_refl 2), run, table, keys⟩

def Dialect.run? (d : Dialect) (body : String) : Option (Except ReadError Findings) :=
  if d.vocabulary.isEmpty then some (.error .emptyVocabulary)
  else do
    match ← Region.spanOf? body with
    | none => return .ok {}
    | some span =>
      let text ← Text.slice? body span
      let M := Machine.ofSource body (Token.scan span.start text.toList) d.limits.maxDepth
      match ← Machine.outcome (M.markers (2 * M.tokens.length) d.vocabulary []) ⟨0, 0⟩ with
      | (.ok ms, _) => return .ok (.ofMarkers ms)
      | (.error l, _) => return .error (.fault l body)

/-- No comment stops the machine: it cuts between characters, looks at tokens that are there and
counts within the range. What it finds is what the rules read. -/
theorem Dialect.run?_eq_read (d : Dialect) (bounded : d.limits.maxDepth < UInt64.size)
    (body : String) : d.run? body = some (d.read body) := by
  rw [run?]
  split
  case isTrue empty => simp [read, markers, empty, Except.map]
  case isFalse known =>
    rw [Bool.not_eq_true] at known
    rw [Region.spanOf?_eq]
    cases region : Region.ofBody? body with
    | none =>
      rw [read, markers_of_none known region]
      rfl
    | some r =>
      rw [read, markers_of_region known region]
      have start := (Machine.valid_ofSource region bounded).at_start rfl
      obtain ⟨s, -, found⟩ := Machine.At.outcome_markers (d := d) start (Nat.le_refl _)
      simp only [Option.map_some, Option.bind_eq_bind, Option.bind_some,
        Text.slice?_eq_some_iff.2 (Region.holds_span region), String.toList_ofList, Region.span_start,
        found]
      cases d.markersOf _ with
      | ok ms => rfl
      | error l => rfl

theorem Dialect.run?_eq_read_multibyte :
    ∃ (d : Dialect) (f : Findings) (m : Marker) (t : Table),
      d.limits.maxDepth + 1 = UInt64.size ∧ d.limits.maxDepth < UInt64.size ∧
      d.run? "é @p(k = \x7b9223372036854775807: \"ü\"\"\", \"ß\"\x7d)" = some (.ok f) ∧
      f.get? "p" = some (.once m) ∧ m.get? "k" = some (.table t) ∧
      t.keys = [.int Int64.maxValue] ∧ t.values.map Value.string? = [some "ß"] := by
  let d : Dialect := ⟨⟨[⟨"p", [("k", .tableOf (.scalar .string))]⟩], by simp⟩, ⟨UInt64.size - 1⟩⟩
  have bounded : d.limits.maxDepth < UInt64.size := by decide
  have read : ∃ f m t,
      d.read "é @p(k = \x7b9223372036854775807: \"ü\"\"\", \"ß\"\x7d)" = .ok f ∧
        f.get? "p" = some (.once m) ∧ m.get? "k" = some (.table t) ∧
        t.keys = [.int Int64.maxValue] ∧ t.values.map Value.string? = [some "ß"] :=
    ⟨_, _, _, by cbv, by cbv, by cbv, by cbv, by cbv⟩
  obtain ⟨f, m, t, read, once, table⟩ := read
  have run := run?_eq_read d bounded
    "é @p(k = \x7b9223372036854775807: \"ü\"\"\", \"ß\"\x7d)"
  rw [read] at run
  exact ⟨d, f, m, t, rfl, bounded, run, once, table⟩

end DocMarks
