import DocMarks.Token.Cursor

namespace DocMarks.Cursor

variable {c d e : Cursor} {t : Token} {ts us : List Token}

def upcoming (c : Cursor) : List Token := c.current :: c.ahead

def Ends (c : Cursor) : Prop := ∀ t ∈ c.upcoming.getLast?, t.kind = .finish

structure Passes (c : Cursor) (ts : List Token) (d : Cursor) : Prop where
  behind : d.behind = ts.reverse ++ c.behind
  upcoming : c.upcoming = ts ++ d.upcoming

theorem passes_nil_iff : c.Passes [] d ↔ d = c := by
  constructor
  · rintro ⟨behind, upcoming⟩
    rcases c with ⟨_, _, _⟩
    rcases d with ⟨_, _, _⟩
    simp_all [Cursor.upcoming]
  · rintro rfl
    exact ⟨rfl, rfl⟩

theorem passes_cons_iff :
    c.Passes (t :: ts) d ↔ c.current = t ∧ c.ahead ≠ [] ∧ c.step.Passes ts d := by
  rcases c with ⟨behind, current, _ | ⟨u, us⟩⟩
  · constructor
    · rintro ⟨-, upcoming⟩
      simp [Cursor.upcoming] at upcoming
    · rintro ⟨-, empty, -⟩
      exact absurd rfl empty
  · constructor
    · rintro ⟨hb, hu⟩
      simp only [Cursor.upcoming, List.cons_append, List.cons.injEq] at hu
      refine ⟨hu.1, by simp, ?_, hu.2⟩
      simp [hb, step, hu.1]
    · rintro ⟨rfl, -, hb, hu⟩
      refine ⟨by simpa [step] using hb, ?_⟩
      simpa [Cursor.upcoming, step] using hu

theorem passes_append_iff :
    c.Passes (ts ++ us) e ↔ ∃ d, c.Passes ts d ∧ d.Passes us e := by
  induction ts generalizing c with
  | nil => simp [passes_nil_iff]
  | cons t ts ih => simp [passes_cons_iff, ih, and_assoc]

theorem Passes.trans (h : c.Passes ts d) (h' : d.Passes us e) : c.Passes (ts ++ us) e :=
  passes_append_iff.2 ⟨d, h, h'⟩

theorem exists_passes (h : c.upcoming = ts ++ us) (more : us ≠ []) :
    ∃ d, c.Passes ts d ∧ d.upcoming = us := by
  obtain ⟨u, us, rfl⟩ := List.exists_cons_of_ne_nil more
  exact ⟨⟨ts.reverse ++ c.behind, u, us⟩, ⟨rfl, h⟩, rfl⟩

theorem Passes.next_eq (h : c.Passes [t] d) : c.next = d.current := by
  rcases c with ⟨behind, current, _ | ⟨u, us⟩⟩
  · simp [passes_cons_iff] at h
  · simp only [passes_cons_iff, passes_nil_iff, step] at h
    simp [next, h.2.2]

theorem Passes.remaining_eq (h : c.Passes ts d) : c.remaining = ts.length + d.remaining := by
  have := congrArg List.length h.upcoming
  simp only [Cursor.upcoming, List.length_cons, List.length_append] at this
  simp only [remaining]
  omega

theorem Passes.split (h : c.Passes ts e) (h' : c.Passes us d) (last : e.ahead = []) :
    ∃ rest, ts = us ++ rest ∧ d.Passes rest e := by
  have shorter : us.length ≤ ts.length := by
    have := h.remaining_eq
    have := h'.remaining_eq
    simp only [remaining, last, List.length_nil] at *
    omega
  obtain ⟨rest, rfl⟩ : us <+: ts :=
    List.prefix_of_prefix_length_le ⟨_, h'.upcoming.symm⟩ ⟨_, h.upcoming.symm⟩ shorter
  refine ⟨rest, rfl, ?_, ?_⟩
  · rw [h.behind, h'.behind, List.reverse_append, List.append_assoc]
  · have same := h.upcoming
    rw [h'.upcoming, List.append_assoc] at same
    exact List.append_cancel_left same

theorem Passes.remaining_lt {steps : Nat} (h : c.Passes ts e) (rest : d.Passes us e)
    (shorter : us.length < ts.length) (enough : c.remaining < steps + 1) :
    d.remaining < steps := by
  have := h.remaining_eq
  have := rest.remaining_eq
  omega

theorem next_eq_step (c : Cursor) (more : c.ahead ≠ []) : c.next = c.step.current := by
  rcases c with ⟨behind, current, _ | ⟨u, us⟩⟩
  · exact absurd rfl more
  · rfl

def Ahead (c d : Cursor) : Prop := d.upcoming <:+ c.upcoming

theorem Ahead.refl (c : Cursor) : c.Ahead c := List.suffix_rfl

theorem Ahead.trans (h : c.Ahead d) (h' : d.Ahead e) : c.Ahead e := List.IsSuffix.trans h' h

theorem Ahead.mem (h : c.Ahead d) (ht : t ∈ d.upcoming) : t ∈ c.upcoming := h.subset ht

theorem Ahead.ends_iff (h : c.Ahead d) : c.Ends ↔ d.Ends := by
  obtain ⟨ts, h⟩ := h
  have last : c.upcoming.getLast? = d.upcoming.getLast? := by
    rw [← h, List.getLast?_append, upcoming, List.getLast?_cons]
    rfl
  rw [Ends, Ends, last]

theorem Ahead.ends (h : c.Ahead d) (ends : c.Ends) : d.Ends := h.ends_iff.1 ends

theorem Ahead.remaining_le (h : c.Ahead d) : d.remaining ≤ c.remaining :=
  Nat.le_of_succ_le_succ h.length_le

theorem ahead_step (c : Cursor) : c.Ahead c.step := by
  rcases c with ⟨behind, current, _ | ⟨u, us⟩⟩
  · exact List.suffix_rfl
  · exact List.suffix_cons current (u :: us)

theorem Passes.ahead (h : c.Passes ts d) : c.Ahead d := ⟨ts, h.upcoming.symm⟩

theorem Passes.ends (h : c.Passes ts d) (ends : c.Ends) : d.Ends := h.ahead.ends ends

theorem Ends.step (ends : c.Ends) : c.step.Ends := c.ahead_step.ends ends

theorem current_mem_upcoming (c : Cursor) : c.current ∈ c.upcoming := List.mem_cons_self

theorem Ends.passes_step (ends : c.Ends) (more : c.current.kind ≠ .finish) :
    c.Passes [c.current] c.step := by
  refine passes_cons_iff.2 ⟨rfl, ?_, passes_nil_iff.2 rfl⟩
  intro empty
  exact more (ends c.current (by simp [upcoming, empty]))

theorem behind_ofTokens (ts : List Token) : (ofTokens ts).behind = [] := by
  rw [ofTokens]
  split <;> rfl

theorem upcoming_ofTokens (ts : List Token) : (ofTokens ts).upcoming = finished ts := by
  rw [ofTokens]
  cases h : finished ts with
  | nil =>
    rw [finished] at h
    split at h
    · cases h
    · split at h <;> simp_all
  | cons t ts => rfl

theorem ends_ofTokens (ts : List Token) : (ofTokens ts).Ends := by
  intro t ht
  rw [upcoming_ofTokens, finished] at ht
  split at ht
  case h_1 =>
    cases ht
    rfl
  case h_2 last hlast =>
    split at ht
    · rw [hlast] at ht
      cases ht
      assumption
    · rw [List.getLast?_concat] at ht
      cases ht
      rfl

end DocMarks.Cursor
