import Mathlib
import DocMarks.Proofs.Lockstep
import DocMarks.Proofs.Token.Lexeme

namespace DocMarks

namespace Token

variable {ts us : List Token}

def gluedAt (ts : List Token) : Nat → Bool
  | 0 => false
  | i + 1 =>
    match ts[i]?, ts[i + 1]? with
    | some t, some u => t.span.stop == u.span.start
    | _, _ => false

/-- At every index a token of the same kind with the same text, and at-signs glued alike. -/
def SameLayout (ts us : List Token) : Prop :=
  ts.length = us.length ∧ ∀ i < ts.length,
    ts[i]?.map kind = us[i]?.map kind ∧ ts[i]?.map text = us[i]?.map text ∧
      (ts[i]?.map kind = some .atSign → gluedAt ts i = gluedAt us i)

instance (ts us : List Token) : Decidable (SameLayout ts us) :=
  inferInstanceAs (Decidable (_ ∧ _))

def Pairing.sameIndex (ts us : List Token) : Pairing where
  pairs t u := t.kind = u.kind ∧ t.text = u.text ∧ ∃ i : Nat, ts[i]? = some t ∧ us[i]? = some u
  kind_eq h := h.1
  text_eq h := h.2.1

def before? (ts : List Token) : Nat → Option Token
  | 0 => none
  | i + 1 => ts[i]?

theorem follows_before?_iff {i : Nat} {t : Token} (h : ts[i]? = some t) :
    t.Follows (before? ts i) ↔ gluedAt ts i := by
  cases i with
  | zero => simp [Follows, before?, gluedAt]
  | succ i =>
    rw [gluedAt, h, before?, Follows]
    cases ts[i]? with
    | none => simp
    | some s => simp

theorem SameLayout.paired (h : SameLayout ts us) (i : Nat) :
    Paired (.sameIndex ts us) (before? ts i) (before? us i) (ts.drop i) (us.drop i) := by
  -- from the end of the sequences to their start
  induction hn : ts.length - i generalizing i with
  | zero =>
    rw [List.drop_eq_nil_of_le (by omega), List.drop_eq_nil_of_le (by have := h.1; omega)]
    exact .nil
  | succ n ih =>
    have hi : i < ts.length := by omega
    have hi' : i < us.length := h.1 ▸ hi
    have rest := ih (i + 1) (by omega)
    obtain ⟨kind, text, glued⟩ := h.2 i hi
    have ht := List.getElem?_eq_getElem hi
    have hu := List.getElem?_eq_getElem hi'
    rw [ht, hu] at kind text
    rw [ht] at glued
    simp only [Option.map_some, Option.some.injEq] at kind text glued
    rw [List.drop_eq_getElem_cons hi, List.drop_eq_getElem_cons hi']
    refine .cons ⟨kind, text, i, ht, hu⟩ ?_ ?_
    · intro sign
      rw [follows_before?_iff ht, follows_before?_iff hu, glued sign]
    · rwa [before?, before?, ht, hu] at rest

end Token

theorem Cursor.previous?_ofTokens (ts : List Token) : (ofTokens ts).previous? = none := by
  rw [previous?, behind_ofTokens]
  rfl

theorem Dialect.markersOf_agree {P : Token.Pairing} (d : Dialect) {p q : Nat} {cs ds : List Char}
    (h : Token.Paired P none none (Token.scan p cs) (Token.scan q ds)) :
    Rule.Agree P Eq (d.markersOf (Token.scan p cs)) (d.markersOf (Token.scan q ds)) := by
  have inStep : (Cursor.ofTokens (Token.scan p cs)).InStep P (.ofTokens (Token.scan q ds)) := by
    rw [Cursor.InStep, Cursor.previous?_ofTokens, Cursor.previous?_ofTokens,
      Cursor.upcoming_ofTokens, Cursor.upcoming_ofTokens, Token.finished_scan, Token.finished_scan]
    exact h
  rw [markersOf, markersOf, inStep.remaining_eq]
  exact Rule.markers_agree _ _ _ inStep

/-- Comments of the same layout have the same findings, or the same fault at tokens of the same
index. -/
theorem Dialect.read_of_sameLayout (d : Dialect) (known : d.vocabulary.isEmpty = false)
    (body body' : String) (r r' : Region) (region : Region.ofBody? body = some r)
    (region' : Region.ofBody? body' = some r')
    (same : Token.SameLayout (Token.scan r.start r.text) (Token.scan r'.start r'.text)) :
    (∃ f, d.read body = .ok f ∧ d.read body' = .ok f) ∨
      ∃ (fault : Fault) (i : Nat) (t t' : Token), (Token.scan r.start r.text)[i]? = some t ∧
        (Token.scan r'.start r'.text)[i]? = some t' ∧
        d.read body = .error (.fault ⟨fault, t.span⟩ body) ∧
        d.read body' = .error (.fault ⟨fault, t'.span⟩ body') := by
  have agree := d.markersOf_agree (same.paired 0)
  generalize hx : d.markersOf (Token.scan r.start r.text) = x at agree
  generalize hy : d.markersOf (Token.scan r'.start r'.text) = y at agree
  cases agree with
  | ok eq =>
    subst eq
    left
    exact ⟨_, read_eq_ok_iff.2 ⟨_, (markers_eq_ok_iff known region).2 hx, rfl⟩,
      read_eq_ok_iff.2 ⟨_, (markers_eq_ok_iff known region').2 hy, rfl⟩⟩
  | @error t t' fault pairs =>
    obtain ⟨-, -, i, ht, ht'⟩ := pairs
    right
    exact ⟨fault, i, t, t', ht, ht',
      read_eq_error_iff.2 ((markers_eq_error_iff known region).2 ⟨_, hx, rfl⟩),
      read_eq_error_iff.2 ((markers_eq_error_iff known region').2 ⟨_, hy, rfl⟩)⟩

theorem Dialect.read_of_sameLayout_wrapped :
    ∃ d : Dialect, d.vocabulary.isEmpty = false ∧
      Region.ofBody? "@p(k=x@)" = some ⟨0, "@p(k=x@)".toList⟩ ∧
      Region.ofBody? "é\n * @p (\n *   k = x@ )\n" = some ⟨6, "@p (\n *   k = x@ )".toList⟩ ∧
      Token.SameLayout (Token.scan 0 "@p(k=x@)".toList)
        (Token.scan 6 "@p (\n *   k = x@ )".toList) ∧
      ∃ (fault : Fault) (t : Token), d.read "@p(k=x@)" = .error (.fault ⟨fault, ⟨5, 6⟩⟩ "@p(k=x@)") ∧
        t ∈ Token.scan 6 "@p (\n *   k = x@ )".toList ∧
        d.read "é\n * @p (\n *   k = x@ )\n" =
          .error (.fault ⟨fault, t.span⟩ "é\n * @p (\n *   k = x@ )\n") := by
  let d : Dialect := ⟨⟨[⟨"p", [("k", .scalar .integer)]⟩], by simp⟩, ⟨1⟩⟩
  have region : Region.ofBody? "@p(k=x@)" = some ⟨0, "@p(k=x@)".toList⟩ := by cbv
  have region' : Region.ofBody? "é\n * @p (\n *   k = x@ )\n" =
      some ⟨6, "@p (\n *   k = x@ )".toList⟩ := by cbv
  have same : Token.SameLayout (Token.scan 0 "@p(k=x@)".toList)
      (Token.scan 6 "@p (\n *   k = x@ )".toList) := by decide +kernel
  have read : d.read "@p(k=x@)" = .error (.fault ⟨.badValue "p" "k" (.mismatch ⟨"x", .integer⟩),
      ⟨5, 6⟩⟩ "@p(k=x@)") := by cbv
  refine ⟨d, rfl, region, region', same, ?_⟩
  rcases read_of_sameLayout d rfl _ _ _ _ region region' same with
    ⟨f, found, -⟩ | ⟨fault, i, t, t', -, ht', fault₁, fault₂⟩
  · rw [read] at found
    cases found
  · rw [fault₁] at read
    simp only [Except.error.injEq, ReadError.fault.injEq, Fault.Located.mk.injEq] at read
    exact ⟨fault, t', read.1.2 ▸ fault₁, List.mem_of_getElem? ht', fault₂⟩

end DocMarks
