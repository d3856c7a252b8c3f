import DocMarks.Proofs.Machine.State
import DocMarks.Proofs.Rule

namespace DocMarks

theorem Cursor.Ends.position_lt_step {c : Cursor} (ends : c.Ends)
    (more : c.current.kind ≠ .finish) : c.position < c.step.position := by
  rw [position_step (passes_cons_iff.1 (ends.passes_step more)).2.1]
  exact Nat.lt_succ_self _

namespace Machine

variable {M : Machine} {α β γ δ : Type} {a b : Allowance} {s s' s'' : State} {c d : Cursor}

structure State.LeadsTo (s s' : State) : Prop where
  index_le : s.index ≤ s'.index
  depth_eq : s'.depth = s.depth

theorem State.LeadsTo.refl (s : State) : s.LeadsTo s := ⟨Nat.le_refl _, rfl⟩

theorem State.LeadsTo.trans (h : s.LeadsTo s') (h' : s'.LeadsTo s'') : s.LeadsTo s'' :=
  ⟨Nat.le_trans h.index_le h'.index_le, h'.depth_eq.trans h.depth_eq⟩

namespace At

theorem leadsTo_step (here : M.At a s c) : s.LeadsTo ⟨c.step.position, s.depth⟩ := by
  refine ⟨?_, rfl⟩
  rw [here.index]
  rcases c with ⟨behind, t, _ | ⟨u, us⟩⟩
  · exact Nat.le_refl _
  · exact Nat.le_succ _

theorem lt_step (here : M.At a s c) (more : c.current.kind ≠ .finish) :
    s.index < c.step.position := by
  rw [here.index]
  exact here.ends.position_lt_step more

theorem remaining_le (here : M.At a s c) (there : M.At b s' d) (leads : s.LeadsTo s') :
    d.remaining ≤ c.remaining := by
  have := here.length_eq
  have := there.length_eq
  have := leads.index_le
  omega

theorem remaining_lt (here : M.At a s c) (there : M.At b s' d) (on : s.index < s'.index) :
    d.remaining < c.remaining := by
  have := here.length_eq
  have := there.length_eq
  omega

end At

/-- The machine has an outcome where the rule has one: related results, or the same fault. It has not
gone back, and it has closed the brackets that it opened. -/
inductive Tracks (s : State) (R : α → State → β → Prop) :
    Option (Except Fault.Located α × State) → Except Fault.Located β → Prop
  | ok {u : α} {s' : State} {v : β} : s.LeadsTo s' → R u s' v →
      Tracks s R (some (.ok u, s')) (.ok v)
  | error {l : Fault.Located} {s' : State} : s.LeadsTo s' →
      Tracks s R (some (.error l, s')) (.error l)

def Reads (M : Machine) (a : Allowance) (u : α) (s : State) (r : α × Cursor) : Prop :=
  r.1 = u ∧ M.At a s r.2

def Progress (M : Machine) (a : Allowance) (s : State) (x : Step α)
    (read : Except Fault.Located (α × Cursor)) : Prop :=
  Tracks s (fun u s' r => M.Reads a u s' r ∧ s.index < s'.index) (outcome x s) read

/-- One turn of the machine is one of the loop that has the outcome `read`. The loop ends with it, or
it goes on at a later token. -/
inductive Turns (M : Machine) (a : Allowance) (s : State) (result : α → Cursor → β)
    (next : α → Cursor → Except Fault.Located β) :
    Option (Except Fault.Located (Turn α) × State) → Except Fault.Located β → Prop
  | ends {x : α} {s' : State} {d : Cursor} : s.LeadsTo s' → M.At a s' d →
      Turns M a s result next (some (.ok (.ends x), s')) (.ok (result x d))
  | goesOn {x : α} {s' : State} {d : Cursor} : s.LeadsTo s' → s.index < s'.index → M.At a s' d →
      Turns M a s result next (some (.ok (.goesOn x), s')) (next x d)
  | error {l : Fault.Located} {s' : State} : s.LeadsTo s' →
      Turns M a s result next (some (.error l, s')) (.error l)

section Tracks

variable {R : α → State → β → Prop} {S : γ → State → δ → Prop} {x : Step α}
  {y : Except Fault.Located β} {f : α → Step γ} {g : β → Except Fault.Located δ}

theorem Tracks.imp {R' : α → State → β → Prop} {o : Option (Except Fault.Located α × State)}
    (h : Tracks s R o y) (weaker : ∀ {u s' v}, s.LeadsTo s' → R u s' v → R' u s' v) :
    Tracks s R' o y := by
  cases h with
  | ok leads related => exact .ok leads (weaker leads related)
  | error leads => exact .error leads

theorem Tracks.after {o : Option (Except Fault.Located α × State)} (h : Tracks s' R o y)
    (leads : s.LeadsTo s') : Tracks s R o y := by
  cases h with
  | ok leads' related => exact .ok (leads.trans leads') related
  | error leads' => exact .error (leads.trans leads')

theorem Tracks.bind (first : Tracks s R (outcome x s) y)
    (rest : ∀ {u s' v}, s.LeadsTo s' → R u s' v → Tracks s' S (outcome (f u) s') (g v)) :
    Tracks s S (outcome (x >>= f) s) (y >>= g) := by
  rw [outcome_bind]
  generalize outcome x s = first' at first
  cases first with
  | ok leads related => exact (rest leads related).after leads
  | error leads => exact .error leads

theorem Tracks.bind_turns {h : α → Step (Turn γ)} {result : γ → Cursor → δ}
    {next : γ → Cursor → Except Fault.Located δ} (first : Tracks s' R (outcome x s') y)
    (leads : s.LeadsTo s')
    (rest : ∀ {u s'' v}, s'.LeadsTo s'' → R u s'' v →
      M.Turns a s result next (outcome (h u) s'') (g v)) :
    M.Turns a s result next (outcome (x >>= h) s') (y >>= g) := by
  rw [outcome_bind]
  generalize outcome x s' = first' at first
  cases first with
  | ok leads' related => exact rest leads' related
  | error leads' => exact .error (leads.trans leads')

/-- A loop does what it is to do if one turn does and the other turns do from a later token. -/
theorem Turns.loop {turn : Step (Turn α)} {again : α → Step α} {result : α → Cursor → β}
    {next : α → Cursor → Except Fault.Located β}
    (h : M.Turns a s result next (outcome turn s) y)
    (ended : ∀ {x s' d}, M.At a s' d → R x s' (result x d))
    (rest : ∀ {x s' d}, s.index < s'.index → M.At a s' d →
      Tracks s' R (outcome (again x) s') (next x d)) :
    Tracks s R (outcome (loop turn again) s) y := by
  rw [Machine.loop, outcome_bind]
  generalize outcome turn s = turn' at h
  cases h with
  | ends leads there => exact .ok leads (ended there)
  | goesOn leads on there => exact (rest on there).after leads
  | error leads => exact .error leads

end Tracks

theorem expect_tracks {kind : Token.Kind} (here : M.At a s c) (more : kind ≠ .finish) :
    Tracks s (fun t s' d => t = c.current ∧ d = c.step ∧ M.At a s' d ∧ s.index < s'.index)
      (outcome (M.expect kind) s) (Rule.expect kind c) := by
  rw [expect, outcome_bind_of_ok here.lookahead_eq, Rule.expect]
  split
  case isTrue found =>
    rw [here.advance_eq]
    exact .ok here.leadsTo_step ⟨rfl, rfl, here.step, here.lt_step (found ▸ more)⟩
  case isFalse =>
    rw [here.unexpected_eq]
    exact .error (.refl s)

theorem literal_progress (here : M.At a s c) : M.Progress a s M.literal (Rule.literal c) := by
  rw [Progress, literal, outcome_bind_of_ok here.lookahead_eq, outcome_bind, here.literalOf_eq,
    Rule.literal]
  cases h : Rule.literalOf c.current with
  | error l => exact .error (.refl s)
  | ok l =>
    have more : c.current.kind ≠ .finish := by
      intro finish
      simpa [finish, Token.Kind.isLiteral] using Rule.isLiteral_of_literalOf h
    dsimp only
    rw [outcome_bind_of_ok here.advance_eq]
    exact .ok here.leadsTo_step ⟨⟨rfl, here.step⟩, here.lt_step more⟩

theorem scalar_progress (here : M.At a s c) (kind : ScalarKind) (owner : Owner) :
    M.Progress a s (M.scalar kind owner) (Rule.scalar kind owner a c) := by
  rw [Progress, scalar, outcome_bind_of_ok here.lookahead_eq, Rule.scalar]
  apply (literal_progress here).bind
  rintro _ s' ⟨l, d⟩ - ⟨⟨rfl, there⟩, on⟩
  dsimp only
  cases l.coerce c.current.text kind with
  | ok v => exact .ok (.refl s') ⟨⟨rfl, there⟩, on⟩
  | error m => exact .error (.refl s')

theorem nested_progress {x : Step α} {rule : Rule α} (here : M.At a s c)
    (h : ∀ {a s}, M.At a s c → M.Progress a s x (rule a c)) :
    M.Progress a s (M.nested x) (Rule.nested rule a c) := by
  have depth := here.depth
  rw [Progress, nested, outcome_get_bind, Rule.nested]
  cases left : a.left with
  | zero =>
    rw [if_pos (by omega), outcome_bind_of_ok here.lookahead_eq, here.limit]
    exact .error (.refl s)
  | succ n =>
    rw [if_neg (by omega), here.counts s.depth (by omega), outcome_check_bind, outcome_set_bind,
      outcome_closing]
    -- inside, one bracket more is open and one level less is left
    have inside : M.At ⟨a.limit, n⟩ ⟨s.index, s.depth + 1⟩ c :=
      { here with depth := by simp only; omega }
    have inner := h inside
    rw [Progress] at inner
    dsimp only at inner ⊢
    generalize outcome x _ = outcome at inner ⊢
    generalize rule _ c = result at inner ⊢
    cases inner with
    | @ok _ s' _ leads read =>
      obtain ⟨⟨rfl, there⟩, on⟩ := read
      have closed : Count.decrement? s'.depth = some s.depth := by rw [leads.depth_eq]; rfl
      rw [Option.bind_some, closed]
      refine .ok ⟨leads.index_le, rfl⟩ ⟨⟨rfl, ?_⟩, on⟩
      exact { there with depth := depth, limit := here.limit }
    | @error _ s' leads =>
      have closed : Count.decrement? s'.depth = some s.depth := by rw [leads.depth_eq]; rfl
      rw [Option.bind_some, closed]
      exact .error ⟨leads.index_le, rfl⟩

theorem itemsTurn_turns {item : Step Value} {rule : Rule Value} (here : M.At a s c)
    (h : ∀ {s' d}, s.LeadsTo s' → M.At a s' d → M.Progress a s' item (rule a d)) (t : Table)
    (steps : Nat) :
    M.Turns a s Prod.mk (fun t d => Rule.items rule steps t a d) (outcome (M.itemsTurn item t) s)
      (Rule.items rule (steps + 1) t a c) := by
  rw [itemsTurn, outcome_bind_of_ok here.lookahead_eq]
  split
  case h_1 close =>
    rw [Rule.items_close close, outcome_bind_of_ok here.advance_eq]
    exact .ends here.leadsTo_step here.step
  case h_2 comma =>
    rw [Rule.items_comma comma, outcome_bind_of_ok here.advance_eq]
    exact .goesOn here.leadsTo_step (here.lt_step (by simp [comma])) here.step
  case h_3 close comma =>
    rw [outcome_bind_of_ok here.glimpse_eq]
    split
    case isTrue key =>
      simp only [Bool.and_eq_true, beq_iff_eq] at key
      rw [Rule.items_key key.1 key.2]
      apply (literal_progress here).bind_turns (.refl s)
      rintro _ s₁ ⟨l, d⟩ leads ⟨⟨rfl, there⟩, -⟩
      apply (expect_tracks there (by decide)).bind_turns leads
      rintro _ s₂ _ leads' ⟨-, rfl, there, -⟩
      have leads := leads.trans leads'
      apply (h leads there).bind_turns leads
      rintro _ s₃ ⟨v, e⟩ leads' ⟨⟨rfl, there⟩, on⟩
      rw [Table.insert?_eq, outcome_check_bind]
      exact .goesOn (leads.trans leads') (Nat.lt_of_le_of_lt leads.index_le on) there
    case isFalse free =>
      rw [Rule.items_value close comma (by simpa using free)]
      apply (h (.refl s) here).bind_turns (.refl s)
      rintro _ s' ⟨v, d⟩ leads ⟨⟨rfl, there⟩, on⟩
      rw [Table.insert?_eq, outcome_check_bind]
      exact .goesOn leads on there

theorem table_progress {items : Table → Step Table} {rule : Rule Value} (here : M.At a s c)
    (h : ∀ {s' d}, s.index < s'.index → M.At a s' d →
      Tracks s' (M.Reads a) (outcome (items {}) s') (Rule.items rule (d.remaining + 1) {} a d)) :
    M.Progress a s (M.table items) (Rule.table rule a c) := by
  apply (expect_tracks here (by decide)).bind
  rintro _ s' d - ⟨-, -, there, on⟩
  apply (h on there).bind
  rintro _ s'' ⟨t, e⟩ leads ⟨rfl, there⟩
  exact .ok (.refl s'') ⟨⟨rfl, there⟩, Nat.lt_of_lt_of_le on leads.index_le⟩

section Attributes

variable {t : MarkerType} {read : Shape → Owner → Step Value}

theorem entry_progress (here : M.At a s c)
    (h : ∀ {shape owner s' d}, s.index < s'.index → M.At a s' d →
      M.Progress a s' (read shape owner) (shape.rule owner a d)) (m : Marker) :
    M.Progress a s (M.entry (value? read t) m)
      (Rule.expect .name c >>= fun _ => Rule.entry t.rule? m a c) := by
  apply (expect_tracks here (by decide)).bind
  rintro _ s₁ _ leads ⟨rfl, rfl, there, on⟩
  rw [Rule.entry, value?]
  dsimp only
  rw [MarkerType.rule?_eq]
  cases t.shape? c.current.text with
  | none => exact .error (.refl s₁)
  | some shape =>
    apply (expect_tracks there (by decide)).bind
    rintro _ s₂ d leads' ⟨-, -, there, on'⟩
    have on := Nat.lt_trans on on'
    rw [outcome_bind_of_ok there.lookahead_eq]
    apply (h on there).bind
    rintro _ s₃ ⟨v, e⟩ leads'' ⟨⟨rfl, there⟩, -⟩
    dsimp only
    cases m.set c.current.text v with
    | ok m => exact .ok (.refl s₃) ⟨⟨rfl, there⟩, Nat.lt_of_lt_of_le on leads''.index_le⟩
    | error r => exact .error (.refl s₃)

theorem entriesTurn_turns (here : M.At a s c)
    (h : ∀ {shape owner s' d}, s.index < s'.index → M.At a s' d →
      M.Progress a s' (read shape owner) (shape.rule owner a d)) (m : Marker) (steps : Nat) :
    M.Turns a s Prod.mk (fun m d => Rule.entries t.rule? steps m a d)
      (outcome (M.entriesTurn (value? read t) m) s) (Rule.entries t.rule? (steps + 1) m a c) := by
  rw [entriesTurn, outcome_bind_of_ok here.lookahead_eq]
  split
  case h_1 close =>
    rw [Rule.entries_close close, outcome_bind_of_ok here.advance_eq]
    exact .ends here.leadsTo_step here.step
  case h_2 comma =>
    rw [Rule.entries_comma comma, outcome_bind_of_ok here.advance_eq]
    exact .goesOn here.leadsTo_step (here.lt_step (by simp [comma])) here.step
  case h_3 name =>
    have entry := entry_progress (t := t) here h m
    rw [Rule.expect, if_pos name] at entry
    rw [Rule.entries_entry name]
    apply Tracks.bind_turns (y := Rule.entry t.rule? m a c) entry (.refl s)
    rintro _ s' ⟨m, d⟩ leads ⟨⟨rfl, there⟩, on⟩
    exact .goesOn leads on there
  case h_4 close comma name =>
    rw [Rule.entries_other close comma name, here.unexpected_eq]
    exact .error (.refl s)

end Attributes

section List

variable {t : MarkerType} {entries : Marker → Step Marker}

theorem attributes_progress {m : Marker} (here : M.At a s c)
    (h : ∀ {s' d}, s.index < s'.index → M.At a s' d →
      Tracks s' (M.Reads a) (outcome (entries m) s')
        (Rule.entries t.rule? (d.remaining + 1) m a d)) :
    M.Progress a s (M.attributes entries m) (Rule.attributes t.rule? m a c) := by
  apply (expect_tracks here (by decide)).bind
  rintro _ s' d - ⟨-, -, there, on⟩
  exact (h on there).imp fun leads same => ⟨same, Nat.lt_of_lt_of_le on leads.index_le⟩

theorem tag_tracks (here : M.At a s c) (name : String) (owner : Owner) :
    Tracks s (fun _ s' d => M.At a s' d) (outcome (M.tag name owner) s)
      (Rule.tag name owner c) := by
  rw [tag, outcome_bind_of_ok here.lookahead_eq, Rule.tag]
  split
  case isFalse => exact .ok (.refl s) here
  case isTrue =>
    rw [outcome_bind_of_ok here.advance_eq, outcome_bind_of_ok here.step.name?_eq]
    dsimp only
    cases c.step.current.name? with
    | none =>
      dsimp only
      rw [here.step.unexpected_eq]
      exact .error here.leadsTo_step
    | some found =>
      have leads := here.leadsTo_step.trans here.step.leadsTo_step
      dsimp only
      rw [outcome_bind_of_ok here.step.advance_eq]
      split
      · exact .ok leads here.step.step
      · exact .error leads

theorem tagged_progress (here : M.At a s c) (owner : Owner)
    (h : ∀ {s' d}, s.index < s'.index → M.At a s' d →
      Tracks s' (M.Reads a) (outcome (entries (.fresh t)) s')
        (Rule.entries t.rule? (d.remaining + 1) (.fresh t) a d)) :
    M.Progress a s (M.tagged t entries owner) (Rule.tagged t t.rule? owner a c) := by
  apply (tag_tracks here t.name owner).bind
  intro _ s' d leads there
  have list := attributes_progress there fun on =>
    h (Nat.lt_of_le_of_lt leads.index_le on)
  apply list.bind
  rintro _ s'' ⟨m, e⟩ - ⟨⟨rfl, there⟩, on⟩
  exact .ok (.refl s'') ⟨⟨rfl, there⟩, Nat.lt_of_le_of_lt leads.index_le on⟩

end List

end Machine
end DocMarks
