import DocMarks.Proofs.Grammar.Soundness
import DocMarks.Proofs.Lockstep

namespace DocMarks.Rule

variable {v : Vocabulary} {a : Allowance} {c d : Cursor}

theorem markers_congr {steps steps' : Nat} (ends : c.Ends) (enough : c.remaining < steps)
    (enough' : c.remaining < steps') : markers v a steps c = markers v a steps' c := by
  induction steps generalizing c steps' with
  | zero => exact absurd enough (Nat.not_lt_zero _)
  | succ steps ih =>
    obtain ⟨steps', rfl⟩ := Nat.exists_eq_succ_of_ne_zero (Nat.ne_zero_of_lt enough')
    by_cases finish : c.current.kind = .finish
    · rw [markers_finished finish, markers_finished finish]
    have shorter : c.remaining = 1 + c.step.remaining := (ends.passes_step finish).remaining_eq
    by_cases sign : c.current.kind = .atSign ∧ ¬ c.isGlued
    · rw [markers_sign sign.1 sign.2, markers_sign sign.1 sign.2]
      apply bind_congr_ok
      intro ⟨m?, d⟩ hm
      have ahead := marker?_step_ahead ends hm
      have := ahead.remaining_le
      have rest : markers v a steps d = markers v a steps' d :=
        ih (ahead.ends ends.step) (by omega) (by omega)
      simp only [rest]
    · rw [markers_text finish sign, markers_text finish sign]
      exact ih ends.step (by omega) (by omega)

def search (v : Vocabulary) (a : Allowance) (c : Cursor) : Except Fault.Located (List Marker) :=
  markers v a (c.remaining + 1) c

theorem search_finished (finish : c.current.kind = .finish) : search v a c = .ok [] :=
  markers_finished finish

theorem search_text (ends : c.Ends) (more : c.current.kind ≠ .finish)
    (text : ¬ (c.current.kind = .atSign ∧ ¬ c.isGlued)) : search v a c = search v a c.step := by
  have shorter := (ends.passes_step more).remaining_eq
  rw [search, markers_text more text]
  exact markers_congr ends.step (by simp [shorter]) (Nat.lt_succ_self _)

theorem search_sign (ends : c.Ends) (sign : c.current.kind = .atSign) (free : ¬ c.isGlued) :
    search v a c =
      marker? v a c >>= fun (m?, d) => search v a d >>= fun ms => .ok (m?.toList ++ ms) := by
  have shorter : c.remaining = 1 + c.step.remaining :=
    (ends.passes_step (by simp [sign])).remaining_eq
  rw [search, markers_sign sign free]
  apply bind_congr_ok
  intro ⟨m?, d⟩ hm
  have ahead := marker?_step_ahead ends hm
  have := ahead.remaining_le
  have rest : markers v a c.remaining d = search v a d :=
    markers_congr (ahead.ends ends.step) (by omega) (Nat.lt_succ_self _)
  simp only [rest]

theorem search_passes {ts : List Token} (ends : c.Ends) (passes : c.Passes ts d)
    (strays : ∀ t ∈ ts, t.kind = .stray) : search v a c = search v a d := by
  induction ts generalizing c with
  | nil => rw [Cursor.passes_nil_iff.1 passes]
  | cons t ts ih =>
    rw [List.forall_mem_cons] at strays
    obtain ⟨rfl, -, rest⟩ := Cursor.passes_cons_iff.1 passes
    rw [search_text ends (by simp [strays.1]) (by simp [strays.1])]
    exact ih ends.step rest strays.2

theorem search_agree {P : Token.Pairing} (h : c.InStep P d) :
    Agree P Eq (search v a c) (search v a d) := by
  rw [search, search, h.remaining_eq]
  exact markers_agree v a _ h

end DocMarks.Rule
