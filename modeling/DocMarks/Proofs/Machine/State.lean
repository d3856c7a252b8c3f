import DocMarks.Proofs.Machine.Basic

namespace DocMarks.Machine

variable {M : Machine} {a : Allowance} {s s' : State} {c : Cursor} {α β : Type}

section Outcome

variable {x : Step α} {u : α}

@[simp] theorem outcome_throw (l : Fault.Located) (s : State) :
    outcome (throw l : Step α) s = some (.error l, s) := rfl

@[simp] theorem outcome_ofExcept (r : Except Fault.Located α) (s : State) :
    outcome (MonadExcept.ofExcept r) s = some (r, s) := by
  cases r with
  | error l => rfl
  | ok u => rfl

@[simp] theorem outcome_get_bind (f : State → Step β) (s : State) :
    outcome (get >>= f) s = outcome (f s) s := rfl

@[simp] theorem outcome_set_bind (f : PUnit → Step β) (s s' : State) :
    outcome (set s' >>= f) s = outcome (f ⟨⟩) s' := rfl

@[simp] theorem outcome_check_bind (u : α) (f : α → Step β) (s : State) :
    outcome (check (some u) >>= f) s = outcome (f u) s := rfl

theorem outcome_bind (x : Step α) (f : α → Step β) (s : State) :
    outcome (x >>= f) s =
      match outcome x s with
      | none => none
      | some (.error l, s) => some (.error l, s)
      | some (.ok u, s) => outcome (f u) s := by
  rw [outcome, outcome, ExceptT.run_bind, StateT.run_bind]
  cases x.run.run s with
  | none => rfl
  | some r =>
    obtain ⟨_ | u, s⟩ := r
    · rfl
    · rfl

theorem outcome_bind_of_ok (h : outcome x s = some (.ok u, s')) (f : α → Step β) :
    outcome (x >>= f) s = outcome (f u) s' := by
  rw [outcome_bind, h]

theorem outcome_closing (x : Step α) (s : State) :
    outcome (closing x) s = (outcome x s).bind fun r =>
      (Count.decrement? r.2.depth).map fun depth => (r.1, { r.2 with depth }) := by
  rw [closing, outcome, outcome, ExceptT.run_mk, StateT.run_bind]
  cases x.run.run s with
  | none => rfl
  | some r =>
    rcases r with ⟨r, ⟨i, _ | depth⟩⟩
    · rfl
    · rfl

end Outcome

structure Valid (M : Machine) : Prop where
  texts : ∀ t ∈ M.tokens, M.text? t = some t.text
  quotes : ∀ t ∈ M.tokens, t.kind = .string → M.unquote? t.text = some (unquote t.text)
  counts : ∀ n < M.limit, M.increment? n = some (n + 1)

/-- The machine is at the token of the cursor, with the allowance left over by its open brackets. -/
structure At (M : Machine) (a : Allowance) (s : State) (c : Cursor) : Prop extends M.Valid where
  tokens : M.tokens = c.behind.reverse ++ c.upcoming
  index : s.index = c.position
  depth : s.depth + a.left = M.limit
  limit : a.limit = M.limit
  ends : c.Ends

theorem Valid.tokenAt_eq (valid : M.Valid) {index : Nat} {t : Token}
    (h : M.tokens[index]? = some t) (s : State) :
    outcome (M.tokenAt index) s = some (.ok t, s) := by
  rw [tokenAt, h, outcome_check_bind, valid.texts t (List.mem_of_getElem? h), outcome_check_bind]
  rfl

namespace At

variable (here : M.At a s c)

include here

theorem length_eq : M.tokens.length = s.index + c.remaining + 1 := by
  rw [here.tokens, here.index]
  simp [Cursor.position, Cursor.upcoming, Cursor.remaining, Nat.add_assoc]

theorem decrement?_length : Count.decrement? M.tokens.length = some (s.index + c.remaining) := by
  rw [here.length_eq]
  rfl

theorem getElem?_add (n : Nat) : M.tokens[s.index + n]? = c.upcoming[n]? := by
  rw [here.tokens, here.index, Cursor.position, ← List.length_reverse,
    List.getElem?_append_right (Nat.le_add_right _ _), Nat.add_sub_cancel_left]

theorem getElem?_current : M.tokens[s.index]? = some c.current := here.getElem?_add 0

theorem getElem?_next : M.tokens[min (s.index + 1) (s.index + c.remaining)]? = some c.next := by
  rcases c with ⟨behind, t, _ | ⟨u, us⟩⟩
  · have last : min (s.index + 1) (s.index + 0) = s.index := by omega
    rw [Cursor.remaining, List.length_nil, last]
    exact here.getElem?_current
  · have inside : min (s.index + 1) (s.index + (us.length + 1)) = s.index + 1 := by omega
    rw [Cursor.remaining, List.length_cons, inside]
    exact here.getElem?_add 1

theorem current_mem : c.current ∈ M.tokens := by
  rw [here.tokens]
  exact List.mem_append_right _ c.current_mem_upcoming

theorem lookahead_eq : outcome M.lookahead s = some (.ok c.current, s) := by
  rw [lookahead, outcome_get_bind]
  exact here.tokenAt_eq here.getElem?_current s

theorem glimpse_eq : outcome M.glimpse s = some (.ok c.next, s) := by
  rw [glimpse, here.decrement?_length, outcome_check_bind, outcome_get_bind]
  exact here.tokenAt_eq here.getElem?_next s

theorem previous_eq : outcome M.previous s = some (.ok c.previous?, s) := by
  rw [previous, outcome_get_bind]
  have index := here.index
  have tokens := here.tokens
  rcases c with ⟨_ | ⟨t, behind⟩, u, us⟩
  · rw [index]
    rfl
  · have passed : M.tokens[behind.length]? = some t := by
      rw [tokens]
      simp
    rw [index]
    exact outcome_bind_of_ok (here.tokenAt_eq passed s) _

theorem isGlued_eq : outcome M.isGlued s = some (.ok c.isGlued, s) := by
  rw [isGlued, outcome_bind_of_ok here.lookahead_eq, outcome_bind_of_ok here.previous_eq,
    Cursor.isGlued]
  cases c.previous? with
  | none => rfl
  | some t => rfl

theorem advance_eq : outcome M.advance s = some (.ok c.current, ⟨c.step.position, s.depth⟩) := by
  rw [advance, here.decrement?_length, outcome_check_bind, outcome_get_bind,
    outcome_bind_of_ok (here.tokenAt_eq here.getElem?_current s)]
  have index := here.index
  rcases s with ⟨i, depth⟩
  rcases c with ⟨behind, t, _ | ⟨u, us⟩⟩
  · cases index
    dsimp only
    rw [if_neg (by simp [Cursor.remaining])]
    rfl
  · cases index
    dsimp only
    rw [if_pos (by simp [Cursor.remaining])]
    rfl

theorem step : M.At a ⟨c.step.position, s.depth⟩ c.step where
  toValid := here.toValid
  tokens := by
    rw [here.tokens]
    rcases c with ⟨behind, t, _ | ⟨u, us⟩⟩
    · rfl
    · simp [Cursor.step, Cursor.upcoming]
  index := rfl
  depth := here.depth
  limit := here.limit
  ends := here.ends.step

theorem unexpected_eq (expected : String) :
    outcome (M.unexpected expected : Step α) s =
      some (.error (Fault.unexpectedToken expected c.current), s) := by
  rw [unexpected, outcome_bind_of_ok here.lookahead_eq, outcome_throw]

theorem name?_eq : outcome M.name? s = some (.ok c.current.name?, s) := by
  rw [name?, outcome_bind_of_ok here.lookahead_eq]
  split
  case isTrue string =>
    rw [here.quotes _ here.current_mem string, outcome_check_bind, Token.name?, string]
    rfl
  case isFalse => rfl

theorem literalOf_eq :
    outcome (M.literalOf c.current) s = some (Rule.literalOf c.current, s) := by
  rw [literalOf]
  split
  case isTrue string =>
    rw [here.quotes _ here.current_mem string, outcome_check_bind, Rule.literalOf, string]
    rfl
  case isFalse => rw [outcome_ofExcept]

end At

end DocMarks.Machine
