import DocMarks.Proofs.Cursor
import DocMarks.Proofs.Rule

/-! Two readings side by side. Rules look at the kinds and the texts of tokens, and the search for
markers also at whether an at-sign is glued; positions only go into faults. Where two sequences of
tokens agree on this much, both readings give the same values, or the same fault at tokens that
correspond. -/

namespace DocMarks

open Rule

/-- A correspondence between tokens that differ in their spans only. -/
structure Token.Pairing where
  pairs : Token → Token → Prop
  kind_eq {t u : Token} : pairs t u → t.kind = u.kind
  text_eq {t u : Token} : pairs t u → t.text = u.text

namespace Token

variable {P : Pairing} {t u : Token}

theorem Pairing.found_eq (h : P.pairs t u) : t.found = u.found := by
  simp only [found, P.kind_eq h, P.text_eq h]

theorem Pairing.name?_eq (h : P.pairs t u) : t.name? = u.name? := by
  simp only [name?, P.kind_eq h, P.text_eq h]

def Follows (previous? : Option Token) (t : Token) : Prop :=
  ∃ s ∈ previous?, s.span.stop = t.span.start

/-- The tokens correspond one by one, and at-signs are glued in both sequences or in neither. -/
inductive Paired (P : Pairing) : Option Token → Option Token → List Token → List Token → Prop
  | nil {p? q? : Option Token} : Paired P p? q? [] []
  | cons {p? q? : Option Token} {t u : Token} {ts us : List Token} : P.pairs t u →
      (t.kind = .atSign → (t.Follows p? ↔ u.Follows q?)) → Paired P (some t) (some u) ts us →
      Paired P p? q? (t :: ts) (u :: us)

theorem Paired.length_eq {p? q? : Option Token} {ts us : List Token} (h : Paired P p? q? ts us) :
    ts.length = us.length := by
  induction h with
  | nil => rfl
  | cons _ _ _ ih => exact congrArg Nat.succ ih

end Token

namespace Cursor

variable {P : Token.Pairing} {c d : Cursor}

theorem isGlued_iff (c : Cursor) : c.isGlued ↔ c.current.Follows c.previous? := by
  rw [isGlued, Token.Follows]
  cases c.previous? with
  | none => simp
  | some t => simp

def InStep (P : Token.Pairing) (c d : Cursor) : Prop :=
  Token.Paired P c.previous? d.previous? c.upcoming d.upcoming

theorem InStep.pairs (h : c.InStep P d) : P.pairs c.current d.current := by
  cases h with
  | cons pairs _ _ => exact pairs

theorem InStep.kind_eq (h : c.InStep P d) : c.current.kind = d.current.kind := P.kind_eq h.pairs

theorem InStep.isGlued_eq (h : c.InStep P d) (sign : c.current.kind = .atSign) :
    c.isGlued = d.isGlued := by
  rw [Bool.eq_iff_iff, isGlued_iff, isGlued_iff]
  cases h with
  | cons _ glued _ => exact glued sign

theorem InStep.step (h : c.InStep P d) : c.step.InStep P d.step := by
  obtain ⟨before, t, ts⟩ := c
  obtain ⟨before', u, us⟩ := d
  cases h with
  | cons pairs glued rest =>
    cases rest with
    | nil => exact .cons pairs glued .nil
    | cons pairs' glued' rest' => exact .cons pairs' glued' rest'

theorem InStep.next_kind_eq (h : c.InStep P d) : c.next.kind = d.next.kind := by
  obtain ⟨before, t, ts⟩ := c
  obtain ⟨before', u, us⟩ := d
  cases h with
  | cons pairs glued rest =>
    cases rest with
    | nil => exact P.kind_eq pairs
    | cons pairs' _ _ => exact P.kind_eq pairs'

theorem InStep.remaining_eq (h : c.InStep P d) : c.remaining = d.remaining := by
  cases h with
  | cons _ _ rest => exact rest.length_eq

end Cursor

namespace Rule

variable {P : Token.Pairing} {α β γ δ : Type}

/-- Both outcomes are related results, or the same fault at tokens that correspond. -/
inductive Agree (P : Token.Pairing) (R : α → β → Prop) :
    Except Fault.Located α → Except Fault.Located β → Prop
  | ok {x : α} {y : β} : R x y → Agree P R (.ok x) (.ok y)
  | error {t u : Token} {fault : Fault} : P.pairs t u →
      Agree P R (.error ⟨fault, t.span⟩) (.error ⟨fault, u.span⟩)

theorem Agree.bind {R : α → β → Prop} {S : γ → δ → Prop} {x : Except Fault.Located α}
    {y : Except Fault.Located β} {f : α → Except Fault.Located γ} {g : β → Except Fault.Located δ}
    (first : Agree P R x y) (rest : ∀ {a b}, R a b → Agree P S (f a) (g b)) :
    Agree P S (x >>= f) (y >>= g) := by
  cases first with
  | ok related => exact rest related
  | error pairs => exact .error pairs

theorem Agree.unexpected {R : α → β → Prop} {t u : Token} (expected : String)
    (h : P.pairs t u) : Agree P R (.error (Fault.unexpectedToken expected t))
      (.error (Fault.unexpectedToken expected u)) := by
  rw [Fault.unexpectedToken, Fault.unexpectedToken, Token.Pairing.found_eq h]
  exact .error h

def SameRest (P : Token.Pairing) (r s : α × Cursor) : Prop := r.1 = s.1 ∧ r.2.InStep P s.2

def Lockstep (P : Token.Pairing) (rule : Rule α) : Prop :=
  ∀ (a : Allowance) (c d : Cursor), c.InStep P d → Agree P (SameRest P) (rule a c) (rule a d)

variable {c d : Cursor}

theorem expect_agree (kind : Token.Kind) (h : c.InStep P d) :
    Agree P (Cursor.InStep P) (expect kind c) (expect kind d) := by
  rw [expect, expect, h.kind_eq]
  split
  · exact .ok h.step
  · exact .unexpected _ h.pairs

theorem literalOf_agree {t u : Token} (h : P.pairs t u) :
    Agree P Eq (literalOf t) (literalOf u) := by
  rw [literalOf.eq_def, literalOf.eq_def, P.kind_eq h, P.text_eq h]
  split
  case h_3 =>
    split
    · exact .ok rfl
    · exact .error h
  case h_4 =>
    split
    · exact .ok rfl
    · exact .error h
  case h_8 => exact .unexpected _ h
  all_goals exact .ok rfl

theorem literal_agree (h : c.InStep P d) :
    Agree P (SameRest P) (literal c) (literal d) := by
  apply (literalOf_agree h.pairs).bind
  rintro l _ rfl
  exact .ok ⟨rfl, h.step⟩

theorem scalar_lockstep (kind : ScalarKind) (owner : Owner) : Lockstep P (scalar kind owner) := by
  intro a c d h
  apply (literal_agree h).bind
  rintro ⟨l, c'⟩ ⟨_, d'⟩ ⟨rfl, h'⟩
  simp only [P.text_eq h.pairs]
  split
  · exact .ok ⟨rfl, h'⟩
  · exact .error h.pairs

theorem nested_lockstep {rule : Rule α} (h : Lockstep P rule) : Lockstep P (nested rule) := by
  intro a c d inStep
  rw [nested.eq_def, nested.eq_def]
  split
  · exact .error inStep.pairs
  · exact h _ _ _ inStep

theorem items_lockstep {item : Rule Value} (h : Lockstep P item) (steps : Nat) (t : Table) :
    Lockstep P (items item steps t) := by
  induction steps generalizing t with
  | zero => exact fun _ _ _ inStep => .unexpected _ inStep.pairs
  | succ steps ih =>
    intro a c d inStep
    have kind := inStep.kind_eq
    by_cases close : c.current.kind = .braceClose
    · rw [items_close close, items_close (kind ▸ close)]
      exact .ok ⟨rfl, inStep.step⟩
    by_cases comma : c.current.kind = .comma
    · rw [items_comma comma, items_comma (kind ▸ comma)]
      exact ih t _ _ _ inStep.step
    by_cases key : c.current.kind.isLiteral ∧ c.next.kind = .colon
    · rw [items_key key.1 key.2, items_key (kind ▸ key.1) (inStep.next_kind_eq ▸ key.2)]
      apply (literal_agree inStep).bind
      rintro ⟨l, c⟩ ⟨_, d⟩ ⟨rfl, inStep⟩
      apply (expect_agree .colon inStep).bind
      intro c d inStep
      apply (h _ _ _ inStep).bind
      rintro ⟨v, c⟩ ⟨_, d⟩ ⟨rfl, inStep⟩
      exact ih _ _ _ _ inStep
    · have free : c.current.kind.isLiteral → c.next.kind ≠ .colon :=
        fun literal colon => key ⟨literal, colon⟩
      rw [items_value close comma free,
        items_value (kind ▸ close) (kind ▸ comma) (kind ▸ inStep.next_kind_eq ▸ free)]
      apply (h _ _ _ inStep).bind
      rintro ⟨v, c⟩ ⟨_, d⟩ ⟨rfl, inStep⟩
      exact ih _ _ _ _ inStep

theorem table_lockstep {item : Rule Value} (h : Lockstep P item) : Lockstep P (table item) := by
  intro a c d inStep
  apply (expect_agree .braceOpen inStep).bind
  intro c d inStep
  rw [inStep.remaining_eq]
  apply (items_lockstep h _ _ _ _ _ inStep).bind
  rintro ⟨t, c⟩ ⟨_, d⟩ ⟨rfl, inStep⟩
  exact .ok ⟨rfl, inStep⟩

theorem tag_agree (name : String) (owner : Owner) (h : c.InStep P d) :
    Agree P (Cursor.InStep P) (tag name owner c) (tag name owner d) := by
  rw [tag, tag, h.kind_eq]
  split
  case isTrue =>
    simp only [Token.Pairing.name?_eq h.step.pairs]
    split
    · exact .unexpected _ h.step.pairs
    · split
      · exact .ok h.step.step
      · exact .error h.step.pairs
  case isFalse => exact .ok h

section Attributes

variable {value? : String → Option (Rule Value)}
  (h : ∀ key value, value? key = some value → Lockstep P value)

include h

theorem entry_lockstep (m : Marker) : Lockstep P (entry value? m) := by
  intro a c d inStep
  simp only [entry, P.text_eq inStep.pairs]
  cases hv : value? d.current.text with
  | none => exact .error inStep.pairs
  | some value =>
    apply (expect_agree .equals inStep.step).bind
    intro c d inStep
    apply (h _ _ hv _ _ _ inStep).bind
    rintro ⟨v, c'⟩ ⟨_, d'⟩ ⟨rfl, inStep'⟩
    simp only
    split
    · exact .ok ⟨rfl, inStep'⟩
    · exact .error inStep.pairs

theorem entries_lockstep (steps : Nat) (m : Marker) : Lockstep P (entries value? steps m) := by
  induction steps generalizing m with
  | zero => exact fun _ _ _ inStep => .unexpected _ inStep.pairs
  | succ steps ih =>
    intro a c d inStep
    have kind := inStep.kind_eq
    by_cases close : c.current.kind = .parenClose
    · rw [entries_close close, entries_close (kind ▸ close)]
      exact .ok ⟨rfl, inStep.step⟩
    by_cases comma : c.current.kind = .comma
    · rw [entries_comma comma, entries_comma (kind ▸ comma)]
      exact ih m _ _ _ inStep.step
    by_cases name : c.current.kind = .name
    · rw [entries_entry name, entries_entry (kind ▸ name)]
      apply (entry_lockstep h m _ _ _ inStep).bind
      rintro ⟨m, c⟩ ⟨_, d⟩ ⟨rfl, inStep⟩
      exact ih m _ _ _ inStep
    · rw [entries_other close comma name,
        entries_other (kind ▸ close) (kind ▸ comma) (kind ▸ name)]
      exact .unexpected _ inStep.pairs

theorem attributes_lockstep (m : Marker) : Lockstep P (attributes value? m) := by
  intro a c d inStep
  apply (expect_agree .parenOpen inStep).bind
  intro c d inStep
  rw [inStep.remaining_eq]
  exact entries_lockstep h _ m _ _ _ inStep

theorem tagged_lockstep (t : MarkerType) (owner : Owner) :
    Lockstep P (tagged t value? owner) := by
  intro a c d inStep
  apply (tag_agree t.name owner inStep).bind
  intro c d inStep
  apply (attributes_lockstep h (.fresh t) _ _ _ inStep).bind
  rintro ⟨m, c⟩ ⟨_, d⟩ ⟨rfl, inStep⟩
  exact .ok ⟨rfl, inStep⟩

end Attributes

end Rule

theorem Shape.rule_lockstep {P : Token.Pairing} (s : Shape) (owner : Owner) :
    Lockstep P (s.rule owner) := by
  induction s using Shape.induction generalizing owner with
  | scalar kind =>
    rw [Shape.rule]
    exact scalar_lockstep kind owner
  | marker t ih =>
    rw [Shape.rule]
    apply nested_lockstep
    apply tagged_lockstep
    intro key value hv
    rw [MarkerType.rule?_eq] at hv
    obtain ⟨s, hs, rfl⟩ := Option.map_eq_some_iff.1 hv
    exact ih _ (Entries.mem_of_get? hs) _
  | tableOf s ih =>
    rw [Shape.rule]
    exact nested_lockstep (table_lockstep (ih owner))

theorem MarkerType.rule?_lockstep {P : Token.Pairing} (t : MarkerType) {key : String}
    {value : Rule Value} (h : t.rule? key = some value) : Lockstep P value := by
  rw [MarkerType.rule?_eq] at h
  obtain ⟨s, -, rfl⟩ := Option.map_eq_some_iff.1 h
  exact s.rule_lockstep _

namespace Rule

variable {P : Token.Pairing} {c d : Cursor}

theorem marker?_lockstep (v : Vocabulary) : Lockstep P (marker? v) := by
  intro a c d inStep
  simp only [marker?, Token.Pairing.name?_eq inStep.step.pairs, inStep.step.step.kind_eq]
  cases d.step.current.name? with
  | none => exact .ok ⟨rfl, inStep.step⟩
  | some name =>
    simp only
    cases v.lookup? name with
    | none => exact .ok ⟨rfl, inStep.step.step⟩
    | some t =>
      simp only
      split
      case isTrue =>
        have list : Lockstep P (attributes t.rule? (.fresh t)) :=
          attributes_lockstep (fun _ _ => t.rule?_lockstep) (.fresh t)
        apply (nested_lockstep list _ _ _ inStep.step.step).bind
        rintro ⟨m, c⟩ ⟨_, d⟩ ⟨rfl, inStep⟩
        exact .ok ⟨rfl, inStep⟩
      case isFalse => exact .ok ⟨rfl, inStep.step.step⟩

theorem markers_agree (v : Vocabulary) (a : Allowance) (steps : Nat) (h : c.InStep P d) :
    Agree P Eq (markers v a steps c) (markers v a steps d) := by
  induction steps generalizing c d with
  | zero => exact .ok rfl
  | succ steps ih =>
    have kind := h.kind_eq
    by_cases finish : c.current.kind = .finish
    · rw [markers_finished finish, markers_finished (kind ▸ finish)]
      exact .ok rfl
    by_cases sign : c.current.kind = .atSign ∧ ¬ c.isGlued
    · rw [markers_sign sign.1 sign.2,
        markers_sign (kind ▸ sign.1) (h.isGlued_eq sign.1 ▸ sign.2)]
      apply (marker?_lockstep v a c d h).bind
      rintro ⟨m?, c⟩ ⟨_, d⟩ ⟨rfl, inStep⟩
      apply (ih inStep).bind
      rintro ms _ rfl
      exact .ok rfl
    · -- glue is compared only where the token is an at-sign
      have text : ¬ (d.current.kind = .atSign ∧ ¬ d.isGlued) := by
        rintro ⟨sign', free⟩
        have opens : c.current.kind = .atSign := kind.trans sign'
        exact sign ⟨opens, h.isGlued_eq opens ▸ free⟩
      rw [markers_text finish sign, markers_text (kind ▸ finish) text]
      exact ih h.step

end Rule
end DocMarks
