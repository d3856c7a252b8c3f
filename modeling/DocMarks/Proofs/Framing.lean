import DocMarks.Proofs.Layout
import DocMarks.Proofs.Region

namespace DocMarks

namespace Token

variable {p? q? : Option Token} {ts : List Token}

@[simp] theorem kind_shift (t : Token) (n : Nat) : (t.shift n).kind = t.kind := rfl

def Pairing.shift (n : Nat) : Pairing where
  pairs t u := u = t.shift n
  kind_eq h := by rw [h, kind_shift]
  text_eq h := by rw [h]; rfl

theorem follows_shift_iff (t : Token) (n : Nat) :
    (t.shift n).Follows (p?.map (·.shift n)) ↔ t.Follows p? := by
  cases p? with
  | none => simp [Follows]
  | some s => simp [Follows, Token.shift, Span.shift]

theorem paired_shift (n : Nat) (first : ∀ t ∈ ts.head?, t.kind = .atSign →
      (t.Follows p? ↔ (t.shift n).Follows q?)) :
    Paired (.shift n) p? q? ts (ts.map (·.shift n)) := by
  induction ts generalizing p? q? with
  | nil => exact .nil
  | cons t ts ih =>
    refine .cons rfl (first t rfl) (ih ?_)
    intro u _ _
    exact (follows_shift_iff u n).symm

theorem scan_shift (n p : Nat) (cs : List Char) : scan (p + n) cs = (scan p cs).map (·.shift n) := by
  induction p, cs using scan_induction with
  | nil p => rfl
  | gap p c cs ts gap ih => rw [scan_gap _ _ gap, Nat.add_right_comm, ih]
  | token p c ds rest kind ts gap lexed ih =>
    rw [scan_lexeme _ gap lexed, Nat.add_right_comm, ih, List.map_cons]
    simp [Token.shift, Span.shift, Nat.add_right_comm]

end Token

theorem Rule.Agree.eq_of_shift {α : Type} {n : Nat} {x y : Except Fault.Located α}
    (h : Rule.Agree (.shift n) Eq x y) : y = x.mapError (·.shift n) := by
  cases h with
  | ok eq => rw [eq]; rfl
  | error pairs => rw [pairs]; rfl

theorem Dialect.markersOf_shift (d : Dialect) (n p : Nat) (cs : List Char) :
    d.markersOf (Token.scan (p + n) cs) = (d.markersOf (Token.scan p cs)).mapError (·.shift n) := by
  apply Rule.Agree.eq_of_shift
  apply d.markersOf_agree
  rw [Token.scan_shift]
  apply Token.paired_shift
  simp [Token.Follows]

def ReadError.moved (n : Nat) (body : String) : ReadError → ReadError
  | .emptyVocabulary => .emptyVocabulary
  | .fault l _ => .fault (l.shift n) body

theorem Dialect.markers_moved {d : Dialect} {body body' : String} {n : Nat}
    (region : Region.ofBody? body' = (Region.ofBody? body).map (·.shift n)) :
    d.markers body' = (d.markers body).mapError (ReadError.moved n body') := by
  cases known : d.vocabulary.isEmpty with
  | true =>
    rw [markers, markers, if_pos known, if_pos known]
    rfl
  | false =>
    cases hr : Region.ofBody? body with
    | none =>
      rw [hr] at region
      rw [markers_of_none known region, markers_of_none known hr]
      rfl
    | some r =>
      rw [hr, Option.map_some] at region
      rw [markers_of_region known region, markers_of_region known hr]
      simp only [Region.shift, markersOf_shift]
      cases d.markersOf (Token.scan r.start r.text) with
      | error l => rfl
      | ok ms => rfl

/-- Text without an at-sign in front of a comment and decoration behind it change nothing but
positions. -/
theorem Dialect.read_framed (d : Dialect) (before body after : String)
    (plain : '@' ∉ before.toList)
    (boundary : body.toList.head? = some '@' → ∀ c ∈ before.toList.getLast?, Region.opens c)
    (decoration : ∀ c ∈ after.toList, Region.isDecoration c) :
    Region.ofBody? (before ++ body ++ after) =
        (Region.ofBody? body).map (·.shift (Text.width before.toList)) ∧
      d.read (before ++ body ++ after) =
        (d.read body).mapError
          (ReadError.moved (Text.width before.toList) (before ++ body ++ after)) := by
  have region : Region.ofBody? (before ++ body ++ after) =
      (Region.ofBody? body).map (·.shift (Text.width before.toList)) := by
    rw [Region.ofBody?, String.toList_append, String.toList_append, List.append_assoc]
    exact Region.ofChars?_framed plain boundary decoration
  refine ⟨region, ?_⟩
  rw [read, read, markers_moved region]
  cases d.markers body with
  | error e => rfl
  | ok ms => rfl

theorem Dialect.read_framed_decorated :
    ∃ d : Dialect, '@' ∉ "/** é\n * ".toList ∧
      ("@p(k)\u00a0".toList.head? = some '@' →
        ∀ c ∈ "/** é\n * ".toList.getLast?, Region.opens c) ∧
      (∀ c ∈ "\u2003\n */".toList, Region.isDecoration c) ∧
      d.read "@p(k)\u00a0" =
        .error (.fault ⟨.unknownAttribute "p" "k", ⟨3, 4⟩⟩ "@p(k)\u00a0") ∧
      d.read ("/** é\n * " ++ "@p(k)\u00a0" ++ "\u2003\n */") =
        .error (.fault ⟨.unknownAttribute "p" "k", ⟨13, 14⟩⟩
          ("/** é\n * " ++ "@p(k)\u00a0" ++ "\u2003\n */")) := by
  let d : Dialect := ⟨⟨[⟨"p", []⟩], by simp⟩, ⟨1⟩⟩
  have plain : '@' ∉ "/** é\n * ".toList := by decide
  have boundary : "@p(k)\u00a0".toList.head? = some '@' →
      ∀ c ∈ "/** é\n * ".toList.getLast?, Region.opens c := by
    rintro - c hc
    cases hc
    rfl
  have decoration : ∀ c ∈ "\u2003\n */".toList, Region.isDecoration c :=
    List.all_eq_true.1 (by decide)
  have read : d.read "@p(k)\u00a0" =
      .error (.fault ⟨.unknownAttribute "p" "k", ⟨3, 4⟩⟩ "@p(k)\u00a0") := by cbv
  refine ⟨d, plain, boundary, decoration, read, ?_⟩
  rw [(read_framed d _ _ _ plain boundary decoration).2, read]
  rfl

end DocMarks
