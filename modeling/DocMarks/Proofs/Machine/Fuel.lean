import DocMarks.Proofs.Machine.Progress

namespace DocMarks

namespace Machine

variable {M : Machine} {a : Allowance} {s : State} {c : Cursor} {v : Vocabulary} {fuel steps : Nat}

/-- The fuel is enough where few tokens are ahead. The count that the loop of a rule has makes no
difference while it is beyond the tokens ahead. -/
structure Sufficient (M : Machine) (fuel : Nat) : Prop where
  value : ∀ {a : Allowance} {s : State} {c : Cursor} {shape : Shape} {owner : Owner},
    M.At a s c → 2 * c.remaining < fuel →
    M.Progress a s (M.value fuel shape owner) (shape.rule owner a c)
  items : ∀ {a : Allowance} {s : State} {c : Cursor} {shape : Shape} {owner : Owner} {t : Table}
    {steps : Nat}, M.At a s c → 2 * c.remaining + 1 < fuel → c.remaining < steps →
    Tracks s (M.Reads a) (outcome (M.items fuel shape owner t) s)
      (Rule.items (shape.rule owner) steps t a c)
  entries : ∀ {a : Allowance} {s : State} {c : Cursor} {t : MarkerType} {m : Marker} {steps : Nat},
    M.At a s c → 2 * c.remaining < fuel → c.remaining < steps →
    Tracks s (M.Reads a) (outcome (M.entries fuel t m) s) (Rule.entries t.rule? steps m a c)

section Lists

variable (h : M.Sufficient fuel) (here : M.At a s c)

include h here

theorem table_sufficient (shape : Shape) (owner : Owner) (enough : 2 * c.remaining < fuel + 1) :
    M.Progress a s (M.table (M.items fuel shape owner)) (Rule.table (shape.rule owner) a c) := by
  refine table_progress here fun on there => ?_
  have := here.remaining_lt there on
  exact h.items there (by omega) (Nat.lt_succ_self _)

theorem attributes_sufficient (t : MarkerType) (m : Marker) (enough : 2 * c.remaining < fuel + 2) :
    M.Progress a s (M.attributes (M.entries fuel t) m) (Rule.attributes t.rule? m a c) := by
  refine attributes_progress here fun on there => ?_
  have := here.remaining_lt there on
  exact h.entries there (by omega) (Nat.lt_succ_self _)

theorem tagged_sufficient (t : MarkerType) (owner : Owner) (enough : 2 * c.remaining < fuel + 2) :
    M.Progress a s (M.tagged t (M.entries fuel t) owner) (Rule.tagged t t.rule? owner a c) := by
  refine tagged_progress here owner fun on there => ?_
  have := here.remaining_lt there on
  exact h.entries there (by omega) (Nat.lt_succ_self _)

theorem itemsTurn_sufficient (shape : Shape) (owner : Owner) (t : Table) (steps : Nat)
    (enough : 2 * c.remaining < fuel) :
    M.Turns a s Prod.mk (fun t d => Rule.items (shape.rule owner) steps t a d)
      (outcome (M.itemsTurn (M.value fuel shape owner) t) s)
      (Rule.items (shape.rule owner) (steps + 1) t a c) := by
  refine itemsTurn_turns here (fun leads there => ?_) t steps
  have := here.remaining_le there leads
  exact h.value there (by omega)

theorem entry_sufficient (t : MarkerType) (m : Marker) (enough : 2 * c.remaining < fuel + 2) :
    M.Progress a s (M.entry (value? (M.value fuel) t) m)
      (Rule.expect .name c >>= fun _ => Rule.entry t.rule? m a c) := by
  refine entry_progress here (fun on there => ?_) m
  have := here.remaining_lt there on
  exact h.value there (by omega)

theorem entriesTurn_sufficient (t : MarkerType) (m : Marker) (steps : Nat)
    (enough : 2 * c.remaining < fuel + 2) :
    M.Turns a s Prod.mk (fun m d => Rule.entries t.rule? steps m a d)
      (outcome (M.entriesTurn (value? (M.value fuel) t) m) s)
      (Rule.entries t.rule? (steps + 1) m a c) := by
  refine entriesTurn_turns here (fun on there => ?_) m steps
  have := here.remaining_lt there on
  exact h.value there (by omega)

end Lists

theorem sufficient (M : Machine) (fuel : Nat) : M.Sufficient fuel := by
  induction fuel with
  | zero =>
    constructor
    · exact fun _ enough => absurd enough (Nat.not_lt_zero _)
    · exact fun _ enough => absurd enough (Nat.not_lt_zero _)
    · exact fun _ enough => absurd enough (Nat.not_lt_zero _)
  | succ fuel ih =>
    constructor
    case value =>
      intro a s c shape owner here enough
      cases shape with
      | scalar kind =>
        rw [value, Shape.rule]
        exact scalar_progress here kind owner
      | tableOf shape =>
        rw [value, Shape.rule]
        exact nested_progress here fun inside => table_sufficient ih inside shape owner enough
      | marker t =>
        rw [value, Shape.rule]
        exact nested_progress here fun inside => tagged_sufficient ih inside t owner (by omega)
    case items =>
      intro a s c shape owner t steps here enough counted
      obtain ⟨steps, rfl⟩ := Nat.exists_eq_succ_of_ne_zero (Nat.ne_zero_of_lt counted)
      rw [items]
      refine (itemsTurn_sufficient ih here shape owner t steps (by omega)).loop
        (fun there => ⟨rfl, there⟩) fun on there => ?_
      have := here.remaining_lt there on
      exact ih.items there (by omega) (by omega)
    case entries =>
      intro a s c t m steps here enough counted
      obtain ⟨steps, rfl⟩ := Nat.exists_eq_succ_of_ne_zero (Nat.ne_zero_of_lt counted)
      rw [entries]
      refine (entriesTurn_sufficient ih here t m steps (by omega)).loop
        (fun there => ⟨rfl, there⟩) fun on there => ?_
      have := here.remaining_lt there on
      exact ih.entries there (by omega) (by omega)

theorem marker?_sufficient (here : M.At a s c) (sign : c.current.kind = .atSign)
    (enough : 2 * c.remaining < fuel + 2) (v : Vocabulary) :
    M.Progress a s (M.marker? fuel v) (Rule.marker? v a c) := by
  have on := here.lt_step (by simp [sign])
  have leads := here.leadsTo_step.trans here.step.leadsTo_step
  have on' := Nat.lt_of_lt_of_le on here.step.leadsTo_step.index_le
  rw [Progress, marker?, outcome_bind_of_ok here.advance_eq, outcome_bind_of_ok here.step.name?_eq,
    Rule.marker?]
  dsimp only
  cases c.step.current.name? with
  | none => exact .ok here.leadsTo_step ⟨⟨rfl, here.step⟩, on⟩
  | some name =>
    dsimp only
    rw [outcome_bind_of_ok here.step.advance_eq]
    cases v.lookup? name with
    | none => exact .ok leads ⟨⟨rfl, here.step.step⟩, on'⟩
    | some t =>
      dsimp only
      rw [outcome_bind_of_ok here.step.step.lookahead_eq]
      split
      case isFalse => exact .ok leads ⟨⟨rfl, here.step.step⟩, on'⟩
      case isTrue =>
        have := here.remaining_le here.step.step leads
        have list := nested_progress here.step.step fun inside =>
          attributes_sufficient (M.sufficient fuel) inside t (.fresh t) (by omega)
        refine Tracks.after (Tracks.bind list ?_) leads
        rintro _ s' ⟨m, d⟩ leads' ⟨⟨rfl, there⟩, -⟩
        exact .ok (.refl s') ⟨⟨rfl, there⟩, Nat.lt_of_lt_of_le on' leads'.index_le⟩

theorem map_markers_sign (sign : c.current.kind = .atSign) (free : ¬ c.isGlued)
    (ms : List Marker) :
    (Rule.markers v a (steps + 1) c).map (ms ++ ·) =
      Rule.marker? v a c >>= fun (m?, d) =>
        (Rule.markers v a steps d).map (ms ++ m?.toList ++ ·) := by
  rw [Rule.markers_sign sign free]
  cases Rule.marker? v a c with
  | error l => rfl
  | ok r =>
    dsimp only [bind, Except.bind]
    cases Rule.markers v a steps r.2 with
    | error l => rfl
    | ok rest => simp [Except.map]

theorem markersTurn_sufficient (here : M.At a s c) (closed : s.depth = 0)
    (enough : 2 * c.remaining < fuel + 2) (v : Vocabulary) (ms : List Marker) (steps : Nat) :
    M.Turns a s (fun ms _ => ms) (fun ms d => (Rule.markers v a steps d).map (ms ++ ·))
      (outcome (M.markersTurn (M.marker? fuel v) ms) s)
      ((Rule.markers v a (steps + 1) c).map (ms ++ ·)) := by
  rw [markersTurn, outcome_get_bind, if_pos closed, outcome_check_bind,
    outcome_bind_of_ok here.lookahead_eq, outcome_bind_of_ok here.isGlued_eq]
  split
  case isTrue finished =>
    have none : (Rule.markers v a (steps + 1) c).map (ms ++ ·) = .ok ms := by
      rw [Rule.markers_finished finished]
      simp [Except.map]
    rw [none]
    exact .ends (.refl s) here
  case isFalse more =>
    split
    case isTrue text =>
      rw [Rule.markers_text more (by simpa [Decidable.imp_iff_not_or] using text),
        outcome_bind_of_ok here.advance_eq]
      exact .goesOn here.leadsTo_step (here.lt_step more) here.step
    case isFalse opens =>
      simp only [Bool.or_eq_true, bne_iff_ne, not_or, Decidable.not_not] at opens
      rw [map_markers_sign opens.1 opens.2]
      apply (marker?_sufficient here opens.1 enough v).bind_turns (.refl s)
      rintro _ s' ⟨m?, d⟩ leads ⟨⟨rfl, there⟩, on⟩
      exact .goesOn leads on there

theorem markers_sufficient (fuel : Nat) (here : M.At a s c) (full : a.left = M.limit)
    (enough : 2 * c.remaining + 1 < fuel) (counted : c.remaining < steps) (v : Vocabulary)
    (ms : List Marker) :
    Tracks s (fun ms _ ms' => ms' = ms) (outcome (M.markers fuel v ms) s)
      ((Rule.markers v a steps c).map (ms ++ ·)) := by
  induction fuel generalizing s c steps ms with
  | zero => exact absurd enough (Nat.not_lt_zero _)
  | succ fuel ih =>
    obtain ⟨steps, rfl⟩ := Nat.exists_eq_succ_of_ne_zero (Nat.ne_zero_of_lt counted)
    have closed : s.depth = 0 := by
      have := here.depth
      omega
    rw [markers]
    refine (markersTurn_sufficient here closed (by omega) v ms steps).loop
      (fun _ => rfl) fun on there => ?_
    have := here.remaining_lt there on
    exact ih there (by omega) (by omega) _

/-- Reading from a state on makes progress. The machine that has the fuel does what the rule does,
without a step back; a value, a list or a marker that it reads passes a token, and so does every turn
of a loop that goes on. No loop of a rule uses up a count that is beyond the tokens ahead. -/
structure Progressive (M : Machine) (v : Vocabulary) (fuel : Nat) (a : Allowance) (s : State)
    (c : Cursor) : Prop where
  literal : M.Progress a s M.literal (Rule.literal c)
  value : ∀ shape owner, M.Progress a s (M.value fuel shape owner) (shape.rule owner a c)
  table : ∀ shape owner,
    M.Progress a s (M.table (M.items fuel shape owner)) (Rule.table (shape.rule owner) a c)
  tagged : ∀ t owner,
    M.Progress a s (M.tagged t (M.entries fuel t) owner) (Rule.tagged t t.rule? owner a c)
  attributes : ∀ t m,
    M.Progress a s (M.attributes (M.entries fuel t) m) (Rule.attributes t.rule? m a c)
  entry : ∀ t m, M.Progress a s (M.entry (value? (M.value fuel) t) m)
    (Rule.expect .name c >>= fun _ => Rule.entry t.rule? m a c)
  marker? : c.current.kind = .atSign → M.Progress a s (M.marker? fuel v) (Rule.marker? v a c)
  itemsTurn : ∀ shape owner t steps,
    M.Turns a s Prod.mk (fun t d => Rule.items (shape.rule owner) steps t a d)
      (outcome (M.itemsTurn (M.value fuel shape owner) t) s)
      (Rule.items (shape.rule owner) (steps + 1) t a c)
  entriesTurn : ∀ t m steps,
    M.Turns a s Prod.mk (fun m d => Rule.entries t.rule? steps m a d)
      (outcome (M.entriesTurn (value? (M.value fuel) t) m) s)
      (Rule.entries t.rule? (steps + 1) m a c)
  markersTurn : s.depth = 0 → ∀ ms steps,
    M.Turns a s (fun ms _ => ms) (fun ms d => (Rule.markers v a steps d).map (ms ++ ·))
      (outcome (M.markersTurn (M.marker? fuel v) ms) s)
      ((Rule.markers v a (steps + 1) c).map (ms ++ ·))
  itemsLoop : ∀ shape owner t steps, c.remaining < steps →
    Tracks s (M.Reads a) (outcome (M.items fuel shape owner t) s)
      (Rule.items (shape.rule owner) steps t a c)
  entriesLoop : ∀ t m steps, c.remaining < steps →
    Tracks s (M.Reads a) (outcome (M.entries fuel t m) s) (Rule.entries t.rule? steps m a c)
  markersLoop : s.depth = 0 → ∀ ms steps, c.remaining < steps →
    Tracks s (fun ms _ ms' => ms' = ms) (outcome (M.markers fuel v ms) s)
      ((Rule.markers v a steps c).map (ms ++ ·))

theorem At.progressive (here : M.At a s c) (enough : 2 * c.remaining + 1 < fuel) (v : Vocabulary) :
    M.Progressive v fuel a s c where
  literal := literal_progress here
  value _ _ := (M.sufficient fuel).value here (by omega)
  table shape owner := table_sufficient (M.sufficient fuel) here shape owner (by omega)
  tagged t owner := tagged_sufficient (M.sufficient fuel) here t owner (by omega)
  attributes t m := attributes_sufficient (M.sufficient fuel) here t m (by omega)
  entry t m := entry_sufficient (M.sufficient fuel) here t m (by omega)
  marker? sign := marker?_sufficient here sign (by omega) v
  itemsTurn shape owner t steps :=
    itemsTurn_sufficient (M.sufficient fuel) here shape owner t steps (by omega)
  entriesTurn t m steps := entriesTurn_sufficient (M.sufficient fuel) here t m steps (by omega)
  markersTurn closed ms steps := markersTurn_sufficient here closed (by omega) v ms steps
  itemsLoop _ _ _ _ counted := (M.sufficient fuel).items here enough counted
  entriesLoop _ _ _ counted := (M.sufficient fuel).entries here (by omega) counted
  markersLoop closed ms _ counted := by
    have := here.depth
    exact markers_sufficient fuel here (by omega) enough counted v ms

/-- The whole search finds what the rules find, from the first token on. -/
theorem At.outcome_markers {d : Dialect} {ts : List Token}
    (start : M.At d.allowance ⟨0, 0⟩ (.ofTokens ts)) (enough : 2 * M.tokens.length ≤ fuel) :
    ∃ s, State.LeadsTo ⟨0, 0⟩ s ∧
      outcome (M.markers fuel d.vocabulary []) ⟨0, 0⟩ = some (d.markersOf ts, s) := by
  have length := start.length_eq
  have full : d.allowance.left = M.limit := by simpa using start.depth
  have tracks := markers_sufficient fuel start full (by omega) (Nat.lt_succ_self _)
    d.vocabulary []
  have same : (Rule.markers d.vocabulary d.allowance ((Cursor.ofTokens ts).remaining + 1)
      (Cursor.ofTokens ts)).map ([] ++ ·) = d.markersOf ts := by
    rw [Dialect.markersOf]
    cases Rule.markers d.vocabulary d.allowance _ (Cursor.ofTokens ts) with
    | error l => rfl
    | ok ms => rfl
  rw [same] at tracks
  generalize outcome _ _ = o at tracks ⊢
  generalize d.markersOf ts = found at tracks ⊢
  cases tracks with
  | ok leads same => exact ⟨_, leads, same ▸ rfl⟩
  | error leads => exact ⟨_, leads, rfl⟩

end Machine
end DocMarks
