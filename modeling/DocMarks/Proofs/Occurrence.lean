import DocMarks.Proofs.Conformance
import DocMarks.Proofs.Diagnostics
import DocMarks.Proofs.Findings
import DocMarks.Proofs.Grammar.Completeness
import DocMarks.Proofs.Layout
import DocMarks.Proofs.Search
import DocMarks.Proofs.Token.Cover

/-! Where the markers of a comment stand. The search cuts the tokens of a region into markers and
text: an at-sign that is not glued to what stands before it and has a registered name behind it opens
a marker, and no other at-sign does. -/

namespace DocMarks

open Rule

/-- A marker as it stands among tokens: its at-sign, its name, and its list of attributes, which has
no tokens if there is none. -/
structure Occurrence where
  sign : Token
  name : Token
  list : List Token
  marker : Marker

namespace Occurrence

def tokens (o : Occurrence) : List Token := o.sign :: o.name :: o.list

/-- The tokens of the occurrence spell its marker in front of `rest`, the list of attributes in
brackets that are nested at most `n` deep. -/
structure Reads (v : Vocabulary) (n : Nat) (o : Occurrence) (rest : List Token) : Prop where
  sign : o.sign.kind = .atSign
  name : ∃ name, o.name.name? = some name ∧ v.lookup? name = some o.marker.type
  list : (o.list = [] ∧ o.marker = .fresh o.marker.type ∧
      ∀ t ∈ rest.head?, t.kind ≠ .parenOpen) ∨
    ∃ k sets, n = k + 1 ∧ o.marker.type.DerivesAttributes k o.list sets ∧
      (Marker.fresh o.marker.type).setAll sets = .ok o.marker

theorem getLast?_or (o : Occurrence) (p? : Option Token) :
    o.tokens.getLast?.or p? = o.tokens.getLast? := by
  rw [tokens, List.getLast?_cons]
  rfl

end Occurrence

theorem MarkerType.DerivesAttributes.head {t : MarkerType} {n : Nat} {ts : List Token}
    {sets : List (String × Value)} (h : t.DerivesAttributes n ts sets) :
    ∃ u us, ts = u :: us ∧ u.kind = .parenOpen := by
  cases h with
  | list opening _ _ => exact ⟨_, _, rfl, opening⟩

inductive Piece where
  | text (t : Token)
  | marker (o : Occurrence)

namespace Piece

def tokens : Piece → List Token
  | .text t => [t]
  | .marker o => o.tokens

def marker? : Piece → Option Marker
  | .text _ => none
  | .marker o => some o.marker

def tokensOf (ps : List Piece) : List Token := ps.flatMap tokens

def markersOf (ps : List Piece) : List Marker := ps.filterMap marker?

@[simp] theorem tokensOf_cons (p : Piece) (ps : List Piece) :
    tokensOf (p :: ps) = p.tokens ++ tokensOf ps := rfl

@[simp] theorem markersOf_text (t : Token) (ps : List Piece) :
    markersOf (.text t :: ps) = markersOf ps := rfl

@[simp] theorem markersOf_marker (o : Occurrence) (ps : List Piece) :
    markersOf (.marker o :: ps) = o.marker :: markersOf ps := rfl

end Piece

def Vocabulary.Ignores (v : Vocabulary) (ts : List Token) : Prop :=
  ∀ t ∈ ts.head?, ∀ name, t.name? = some name → v.lookup? name = none

/-- The tokens that follow `p?`, up to the end of the text, fall into the pieces: whatever can open a
marker does, and everything else is passed token by token. -/
inductive Cut (v : Vocabulary) (n : Nat) : Option Token → List Token → List Piece → Prop
  | finish {p? t ts} : t.kind = .finish → Cut v n p? (t :: ts) []
  | text {p? t ts ps} : t.kind ≠ .finish → (t.kind = .atSign → t.Follows p? ∨ v.Ignores ts) →
      Cut v n (some t) ts ps → Cut v n p? (t :: ts) (.text t :: ps)
  | marker {p? o rest ps} : ¬ o.sign.Follows p? → o.Reads v n rest →
      Cut v n o.tokens.getLast? rest ps → Cut v n p? (o.tokens ++ rest) (.marker o :: ps)

theorem Cursor.Passes.previous?_eq {c d : Cursor} {ts : List Token} (h : c.Passes ts d) :
    d.previous? = ts.getLast?.or c.previous? := by
  rw [previous?, h.behind, List.head?_append, List.head?_reverse]
  rfl

namespace Cut

variable {v : Vocabulary} {n : Nat} {p? : Option Token} {ts : List Token} {ps : List Piece}

theorem tokens_eq (cut : Cut v n p? ts ps) :
    ∃ t rest, t.kind = .finish ∧ ts = Piece.tokensOf ps ++ t :: rest := by
  induction cut with
  | @finish p? t ts finish => exact ⟨t, ts, finish, rfl⟩
  | text _ _ _ ih =>
    obtain ⟨t, rest, finish, rfl⟩ := ih
    exact ⟨t, rest, finish, rfl⟩
  | marker _ _ _ ih =>
    obtain ⟨t, rest, finish, rfl⟩ := ih
    exact ⟨t, rest, finish, by simp [Piece.tokens]⟩

theorem split {before after : List Piece} (cut : Cut v n p? ts (before ++ after)) :
    ∃ us, ts = Piece.tokensOf before ++ us ∧
      Cut v n ((Piece.tokensOf before).getLast?.or p?) us after := by
  induction before generalizing p? ts with
  | nil => exact ⟨ts, rfl, cut⟩
  | cons p before ih =>
    cases cut with
    | text _ _ rest =>
      obtain ⟨us, rfl, cut⟩ := ih rest
      refine ⟨us, rfl, ?_⟩
      rw [Piece.tokensOf_cons, List.getLast?_append, Option.or_assoc]
      exact cut
    | @marker _ o _ _ _ _ rest =>
      obtain ⟨us, rfl, cut⟩ := ih rest
      refine ⟨us, by simp [Piece.tokens], ?_⟩
      rw [Piece.tokensOf_cons, List.getLast?_append, Option.or_assoc, Piece.tokens, o.getLast?_or]
      exact cut

end Cut

namespace Rule

variable {v : Vocabulary} {a : Allowance} {c d : Cursor} {ps : List Piece}

theorem cut_text (ends : c.Ends) (more : c.current.kind ≠ .finish)
    (passed : c.current.kind = .atSign →
      c.current.Follows c.previous? ∨ v.Ignores c.step.upcoming)
    (rest : Cut v a.left c.step.previous? c.step.upcoming ps) :
    Cut v a.left c.previous? c.upcoming (.text c.current :: ps) := by
  have first := ends.passes_step more
  rw [first.upcoming]
  rw [first.previous?_eq] at rest
  exact .text more passed rest

theorem cut_marker {o : Occurrence} (passes : c.Passes o.tokens d) (free : ¬ c.isGlued)
    (reads : o.Reads v a.left d.upcoming) (rest : Cut v a.left d.previous? d.upcoming ps) :
    Cut v a.left c.previous? c.upcoming (.marker o :: ps) := by
  obtain ⟨current, -, -⟩ := Cursor.passes_cons_iff.1 passes
  rw [c.isGlued_iff, current] at free
  rw [passes.previous?_eq, o.getLast?_or] at rest
  rw [passes.upcoming]
  exact .marker free reads rest

theorem cut_marker? {m? : Option Marker} (ends : c.Ends) (sign : c.current.kind = .atSign)
    (free : ¬ c.isGlued) (read : marker? v a c = .ok (m?, d))
    (rest : Cut v a.left d.previous? d.upcoming ps) :
    ∃ qs, Cut v a.left c.previous? c.upcoming qs ∧
      Piece.markersOf qs = m?.toList ++ Piece.markersOf ps := by
  have more : c.current.kind ≠ .finish := by simp [sign]
  have first := ends.passes_step more
  rcases marker?_eq_ok_iff.1 read with ⟨unnamed, rfl, rfl⟩ | ⟨name, named, outcome⟩
  · refine ⟨_, cut_text ends more (fun _ => .inr ?_) rest, rfl⟩
    rintro _ ⟨⟩ name named
    rw [unnamed] at named
    cases named
  have second := ends.step.passes_name named
  rcases outcome with ⟨unknown, rfl, rfl⟩ | ⟨t, known, ⟨bare, rfl, rfl⟩ | ⟨m, opens, rfl, list⟩⟩
  · have more' : c.step.current.kind ≠ .finish ∧ c.step.current.kind ≠ .atSign := by
      constructor
      · intro kind
        simp [Token.name?, kind] at named
      · intro kind
        simp [Token.name?, kind] at named
    have cut := cut_text ends.step more'.1 (fun kind => absurd kind more'.2) rest
    refine ⟨_, cut_text ends more (fun _ => .inr ?_) cut, rfl⟩
    rintro _ ⟨⟩ name' named'
    rw [named] at named'
    cases named'
    exact unknown
  · let o : Occurrence := ⟨c.current, c.step.current, [], .fresh t⟩
    have reads : o.Reads v a.left c.step.step.upcoming := by
      refine ⟨sign, ⟨name, named, known⟩, .inl ⟨rfl, rfl, ?_⟩⟩
      rintro _ ⟨⟩
      exact bare
    have passes : c.Passes o.tokens c.step.step := first.trans second
    exact ⟨_, cut_marker passes free reads rest, rfl⟩
  · obtain ⟨k, left, list⟩ := nested_eq_ok_iff.1 list
    obtain ⟨ts, sets, passes, derived, set⟩ := attributes_sound t.sound ends.step.step list
    obtain ⟨rfl, -⟩ := Marker.wellTyped_of_setAll set derived.conforms
    let o : Occurrence := ⟨c.current, c.step.current, ts, m⟩
    have reads : o.Reads v a.left d.upcoming :=
      ⟨sign, ⟨name, named, known⟩, .inr ⟨k, sets, left, derived, set⟩⟩
    have passes : c.Passes o.tokens d := first.trans (second.trans passes)
    exact ⟨_, cut_marker passes free reads rest, rfl⟩

theorem exists_cut {ms : List Marker} (ends : c.Ends) (h : search v a c = .ok ms) :
    ∃ ps, Cut v a.left c.previous? c.upcoming ps ∧ Piece.markersOf ps = ms := by
  induction hn : c.remaining using Nat.strongRecOn generalizing c ms with
  | ind n ih =>
    subst hn
    by_cases finish : c.current.kind = .finish
    · rw [search_finished finish] at h
      cases h
      exact ⟨[], .finish finish, rfl⟩
    have shorter : c.remaining = 1 + c.step.remaining := (ends.passes_step finish).remaining_eq
    by_cases sign : c.current.kind = .atSign ∧ ¬ c.isGlued
    · rw [search_sign ends sign.1 sign.2] at h
      simp only [bind_eq_ok_iff, Prod.exists, Except.ok.injEq] at h
      obtain ⟨m?, d, hm, ns, hns, rfl⟩ := h
      have ahead := marker?_step_ahead ends hm
      have := ahead.remaining_le
      obtain ⟨ps, cut, rfl⟩ := ih d.remaining (by omega) (ahead.ends ends.step) hns rfl
      exact cut_marker? ends sign.1 sign.2 hm cut
    · rw [search_text ends finish sign] at h
      obtain ⟨ps, cut, rfl⟩ := ih c.step.remaining (by omega) ends.step h rfl
      refine ⟨_, cut_text ends finish (fun kind => .inl ?_) cut, rfl⟩
      rw [← c.isGlued_iff]
      by_contra free
      exact sign ⟨kind, free⟩

theorem marker?_of_reads {o : Occurrence} (passes : c.Passes o.tokens d)
    (reads : o.Reads v a.left d.upcoming) : marker? v a c = .ok (some o.marker, d) := by
  obtain ⟨-, -, passes⟩ := Cursor.passes_cons_iff.1 passes
  obtain ⟨second, -, passes⟩ := Cursor.passes_cons_iff.1 passes
  obtain ⟨name, named, known⟩ := reads.name
  rw [← second] at named
  refine marker?_eq_ok_iff.2 (.inr ⟨name, named, .inr ⟨_, known, ?_⟩⟩)
  rcases reads.list with ⟨empty, fresh, bare⟩ | ⟨k, sets, left, derived, set⟩
  · rw [empty] at passes
    obtain rfl := Cursor.passes_nil_iff.1 passes
    exact .inl ⟨bare _ rfl, congrArg some fresh, rfl⟩
  · have opens : c.step.step.current.kind = .parenOpen := by
      obtain ⟨t, us, split, kind⟩ := derived.head
      rw [split] at passes
      rw [(Cursor.passes_cons_iff.1 passes).1, kind]
    have list :=
      (derived.reaches ⟨a.limit, k⟩ passes (Marker.type_fresh _) set).ok_of_le (Nat.le_refl k)
    exact .inr ⟨o.marker, opens, rfl, nested_eq_ok_iff.2 ⟨k, left, list⟩⟩

theorem search_ignored (ends : c.Ends) (sign : c.current.kind = .atSign) (free : ¬ c.isGlued)
    (ignored : v.Ignores c.step.upcoming) : search v a c = search v a c.step := by
  have none_read : ∀ {d : Cursor}, marker? v a c = .ok (none, d) → search v a c = search v a d := by
    intro d read
    rw [search_sign ends sign free, read]
    change (search v a d >>= fun ms => .ok ms) = _
    cases search v a d with
    | error l => rfl
    | ok ms => rfl
  cases named : c.step.current.name? with
  | none => exact none_read (marker?_eq_ok_iff.2 (.inl ⟨named, rfl, rfl⟩))
  | some name =>
    have unknown := ignored _ rfl name named
    rw [none_read (marker?_eq_ok_iff.2 (.inr ⟨name, named, .inl ⟨unknown, rfl, rfl⟩⟩))]
    refine (search_text ends.step ?_ ?_).symm
    · intro kind
      simp [Token.name?, kind] at named
    · rintro ⟨kind, -⟩
      simp [Token.name?, kind] at named

end Rule

theorem Cut.search_eq {v : Vocabulary} {a : Allowance} {p? : Option Token} {ts : List Token}
    {ps : List Piece} (cut : Cut v a.left p? ts ps) {c : Cursor} (ends : c.Ends)
    (previous : c.previous? = p?) (upcoming : c.upcoming = ts) :
    search v a c = .ok (Piece.markersOf ps) := by
  induction cut generalizing c with
  | finish kind =>
    obtain ⟨rfl, -⟩ := List.cons.inj upcoming
    exact search_finished kind
  | @text p? t ts ps more passed _ ih =>
    obtain ⟨rfl, -⟩ := List.cons.inj upcoming
    have first := ends.passes_step more
    rw [first.upcoming] at upcoming
    have upcoming : c.step.upcoming = ts := (List.cons.inj upcoming).2
    rw [Piece.markersOf_text, ← ih ends.step first.previous?_eq upcoming]
    by_cases sign : c.current.kind = .atSign ∧ ¬ c.isGlued
    · rcases passed sign.1 with glued | ignored
      · rw [← previous, ← c.isGlued_iff] at glued
        exact absurd glued sign.2
      · rw [← upcoming] at ignored
        exact search_ignored ends sign.1 sign.2 ignored
    · exact search_text ends more sign
  | @marker p? o rest ps free reads cut ih =>
    have nonempty : rest ≠ [] := by
      cases cut <;> simp [Occurrence.tokens]
    obtain ⟨d, passes, rfl⟩ := Cursor.exists_passes upcoming nonempty
    obtain ⟨current, -, -⟩ := Cursor.passes_cons_iff.1 passes
    rw [← previous, ← current, ← c.isGlued_iff] at free
    have previous' : d.previous? = o.tokens.getLast? := by
      rw [passes.previous?_eq, o.getLast?_or]
    rw [search_sign ends (current ▸ reads.sign) free, marker?_of_reads passes reads]
    simp only [bind, Except.bind, ih (passes.ends ends) previous' rfl, Piece.markersOf_marker]
    rfl

namespace Dialect

variable {d : Dialect} {body : String} {ps : List Piece}

def Cuts (d : Dialect) (body : String) (ps : List Piece) : Prop :=
  match Region.ofBody? body with
  | none => ps = []
  | some r => Cut d.vocabulary d.limits.maxDepth none (Token.scan r.start r.text) ps

theorem cuts_of_none (region : Region.ofBody? body = none) : d.Cuts body ps ↔ ps = [] := by
  rw [Cuts, region]

theorem cuts_of_region {r : Region} (region : Region.ofBody? body = some r) :
    d.Cuts body ps ↔
      Cut d.vocabulary d.limits.maxDepth none (Token.scan r.start r.text) ps := by
  rw [Cuts, region]

theorem markersOf_eq_ok_iff {p : Nat} {cs : List Char} {ms : List Marker} :
    d.markersOf (Token.scan p cs) = .ok ms ↔
      ∃ ps, Cut d.vocabulary d.limits.maxDepth none (Token.scan p cs) ps ∧
        Piece.markersOf ps = ms := by
  have previous := Cursor.previous?_ofTokens (Token.scan p cs)
  have upcoming := Cursor.upcoming_ofTokens (Token.scan p cs)
  rw [Token.finished_scan] at upcoming
  have ends := Cursor.ends_ofTokens (Token.scan p cs)
  constructor
  · intro read
    have cut := exists_cut ends read
    rwa [previous, upcoming] at cut
  · rintro ⟨ps, cut, rfl⟩
    exact cut.search_eq ends previous upcoming

/-- A comment is read exactly by cutting it, and its findings are the markers that it is cut into. -/
theorem read_eq_ok_iff_cuts (known : d.vocabulary.isEmpty = false) {f : Findings} :
    d.read body = .ok f ↔ ∃ ps, d.Cuts body ps ∧ f = Findings.ofMarkers (Piece.markersOf ps) := by
  rw [read_eq_ok_iff]
  cases region : Region.ofBody? body with
  | none =>
    simp only [markers_of_none known region, cuts_of_none region, Except.ok.injEq, exists_eq_left,
      exists_eq_left']
    rfl
  | some r =>
    simp only [markers_eq_ok_iff known region, markersOf_eq_ok_iff, cuts_of_region region]
    constructor
    · rintro ⟨_, ⟨ps, cut, rfl⟩, rfl⟩
      exact ⟨ps, cut, rfl⟩
    · rintro ⟨ps, cut, rfl⟩
      exact ⟨_, ⟨ps, cut, rfl⟩, rfl⟩

end Dialect

namespace Token

variable {p : Nat} {cs : List Char} {t : Token} {ts us : List Token}

theorem scan_eq_append_cons (h : scan p cs = ts ++ t :: us) :
    ∃ before after, cs = before ++ (t.text.toList ++ after) ∧
      t.span.start = p + Text.width before ∧
      (t.span.start = (ts.getLast?.map (·.span.stop)).getD p ∨
        ∃ front c, before = front ++ [c] ∧ isGap c) := by
  revert h
  induction p, cs using scan_induction generalizing ts with
  | nil p =>
    intro h
    cases ts with
    | nil =>
      obtain ⟨rfl, rfl⟩ := List.cons.inj h
      exact ⟨[], [], rfl, rfl, .inl rfl⟩
    | cons s ts => simp at h
  | gap p c cs toks gap ih =>
    intro h
    obtain ⟨before, after, rfl, start, place⟩ := ih h
    refine ⟨c :: before, after, rfl, by rw [start, Text.width_cons, Nat.add_assoc], ?_⟩
    rcases List.eq_nil_or_concat' before with rfl | ⟨front, d, rfl⟩
    · exact .inr ⟨[], c, rfl, gap⟩
    rcases place with place | ⟨front', d', last, gap'⟩
    · cases ts with
      | nil =>
        -- the first token would start before the characters that stand between
        have := d.utf8Size_pos
        simp only [start, Text.width_append, Text.width_cons, List.getLast?_nil, Option.map_none,
          Option.getD_none] at place
        omega
      | cons s ts =>
        left
        rw [place, List.getLast?_cons]
        rfl
    · exact .inr ⟨c :: front', d', by rw [last, List.cons_append], gap'⟩
  | token p c ds rest kind toks _ _ ih =>
    intro h
    cases ts with
    | nil =>
      obtain ⟨rfl, rfl⟩ := List.cons.inj h
      exact ⟨[], rest, by simp, rfl, .inl rfl⟩
    | cons s ts =>
      obtain ⟨rfl, tail⟩ := List.cons.inj h
      obtain ⟨before, after, rfl, start, place⟩ := ih tail
      refine ⟨c :: ds ++ before, after, by simp, ?_, ?_⟩
      · rw [start, Text.width_append, Nat.add_assoc]
      · rcases place with place | ⟨front, d, rfl, gap⟩
        · left
          rw [place, List.getLast?_cons]
          cases ts.getLast? with
          | none => rfl
          | some s => rfl
        · exact .inr ⟨c :: ds ++ front, d, by simp, gap⟩

def AfterGap (t : Token) (body : String) : Prop :=
  ∃ before c after, body.toList = before ++ c :: after ∧
    c ∈ [' ', '\t', '\r', '\n', '\x0c', '*'] ∧ t.span.start = Text.width (before ++ [c])

theorem afterGap_of_not_follows {body : String} {r : Region} (region : Region.ofBody? body = some r)
    (h : scan r.start r.text = ts ++ t :: us) (nonempty : ts ≠ [])
    (free : ¬ t.Follows ts.getLast?) : t.AfterGap body := by
  obtain ⟨outside, trailing, split, start⟩ := Region.ofBody?_eq region
  obtain ⟨before, after, text, at_, place⟩ := scan_eq_append_cons h
  rcases place with glued | ⟨front, c, rfl, gap⟩
  · have last := List.getLast?_eq_some_getLast nonempty
    rw [last] at glued free
    exact absurd ⟨_, rfl, glued.symm⟩ free
  · refine ⟨outside ++ front, c, t.text.toList ++ after ++ trailing, ?_, ?_, ?_⟩
    · rw [split, text]
      simp
    · exact isGap_iff.1 gap
    · rw [at_, start, ← Text.width_append, List.append_assoc]

end Token

theorem Occurrence.Reads.parenOpen_iff {v : Vocabulary} {n : Nat} {o : Occurrence}
    {rest : List Token} (reads : o.Reads v n rest) :
    o.list ≠ [] ↔ ∃ t ∈ (o.list ++ rest).head?, t.kind = .parenOpen := by
  rcases reads.list with ⟨empty, -, bare⟩ | ⟨k, sets, -, derived, -⟩
  · simpa [empty] using bare
  · obtain ⟨t, us, split, kind⟩ := derived.head
    simp [split, kind]

/-- An occurrence needs to see no more of what follows than the next token before the end. -/
theorem Occurrence.Reads.of_append {v : Vocabulary} {n : Nat} {o : Occurrence}
    {rest more : List Token} (reads : o.Reads v n (rest ++ more)) : o.Reads v n rest := by
  refine ⟨reads.sign, reads.name, reads.list.imp_left fun ⟨empty, fresh, bare⟩ => ?_⟩
  refine ⟨empty, fresh, fun t ht => bare t ?_⟩
  rw [List.head?_append, Option.mem_def.1 ht]
  rfl

theorem Vocabulary.Ignores.of_append {v : Vocabulary} {ts us : List Token}
    (h : v.Ignores (ts ++ us)) : v.Ignores ts := by
  refine fun t ht => h t ?_
  rw [List.head?_append, Option.mem_def.1 ht]
  rfl

theorem Cut.tokensOf_eq {v : Vocabulary} {n p : Nat} {cs : List Char} {ps : List Piece}
    (cut : Cut v n none (Token.scan p cs) ps) :
    Token.scan p cs = Piece.tokensOf ps ++ [.finishAt (p + Text.width cs)] := by
  obtain ⟨t, rest, finish, split⟩ := cut.tokens_eq
  obtain ⟨ts, scanned, kinds⟩ := Token.scan_eq_append p cs
  rw [split] at scanned ⊢
  rcases List.eq_nil_or_concat' rest with rfl | ⟨front, last, rfl⟩
  · rw [(List.append_inj' scanned rfl).2]
  · -- the end of the text would stand before its last token
    rw [← List.cons_append, ← List.append_assoc] at scanned
    have before := (List.append_inj' scanned rfl).1
    exact absurd finish (kinds t (by simp [← before]))

namespace Dialect

variable {d : Dialect} {body : String} {f : Findings}

theorem known_of_read (h : d.read body = .ok f) : d.vocabulary.isEmpty = false := by
  cases known : d.vocabulary.isEmpty with
  | false => rfl
  | true =>
    rw [read, markers, if_pos known] at h
    cases h

theorem Cuts.split {before after : List Piece} {p : Piece}
    (cuts : d.Cuts body (before ++ p :: after)) :
    ∃ r us, Region.ofBody? body = some r ∧
      Token.scan r.start r.text = Piece.tokensOf before ++ us ∧
      Cut d.vocabulary d.limits.maxDepth (Piece.tokensOf before).getLast? us (p :: after) := by
  cases region : Region.ofBody? body with
  | none =>
    rw [cuts_of_none region] at cuts
    simp at cuts
  | some r =>
    rw [cuts_of_region region] at cuts
    obtain ⟨us, scanned, cut⟩ := cuts.split
    rw [Option.or_none] at cut
    exact ⟨r, us, rfl, scanned, cut⟩

/-- The tokens of a comment that was read are markers and text. The markers are its findings, each
opens at an at-sign that stands free, with a registered name and with a list of attributes exactly if
a parenthesis follows; an at-sign among the text is glued or calls no registered name. -/
theorem read_opens_free_signs (d : Dialect) (body : String) (f : Findings)
    (h : d.read body = .ok f) :
    ∃ ps : List Piece,
      f = Findings.ofMarkers (Piece.markersOf ps) ∧ f.markers.Perm (Piece.markersOf ps) ∧
      (Region.ofBody? body = none → ps = []) ∧
      (∀ r, Region.ofBody? body = some r →
        Token.scan r.start r.text = Piece.tokensOf ps ++ [.finishAt r.span.stop]) ∧
      (∀ before o after, ps = before ++ .marker o :: after →
        (before = [] ∨ o.sign.AfterGap body) ∧
        ¬ o.sign.Follows (Piece.tokensOf before).getLast? ∧
        o.Reads d.vocabulary d.limits.maxDepth (Piece.tokensOf after) ∧
        (o.list ≠ [] ↔
          ∃ t ∈ (o.list ++ Piece.tokensOf after).head?, t.kind = .parenOpen)) ∧
      ∀ before t after, ps = before ++ .text t :: after → t.kind = .atSign →
        t.Follows (Piece.tokensOf before).getLast? ∨
          d.vocabulary.Ignores (Piece.tokensOf after) := by
  obtain ⟨ps, cuts, rfl⟩ := (read_eq_ok_iff_cuts (known_of_read h)).1 h
  refine ⟨ps, rfl, Findings.markers_ofMarkers_perm _, fun region => (cuts_of_none region).1 cuts,
    fun r region => ((cuts_of_region region).1 cuts).tokensOf_eq, ?_, ?_⟩
  · rintro before o after rfl
    obtain ⟨r, us, region, scanned, cut⟩ := cuts.split
    cases cut with
    | @marker _ _ rest _ free reads cut =>
      obtain ⟨t, more, -, rfl⟩ := cut.tokens_eq
      refine ⟨?_, free, reads.of_append, reads.of_append.parenOpen_iff⟩
      rcases before with _ | ⟨p, before⟩
      · exact .inl rfl
      · have nonempty : Piece.tokensOf (p :: before) ≠ [] := by
          cases p <;> simp [Piece.tokens, Occurrence.tokens]
        exact .inr (Token.afterGap_of_not_follows region scanned nonempty free)
  · rintro before t after rfl sign
    obtain ⟨r, us, -, -, cut⟩ := cuts.split
    cases cut with
    | text _ passed cut =>
      obtain ⟨t, more, -, rfl⟩ := cut.tokens_eq
      exact (passed sign).imp_right Vocabulary.Ignores.of_append

theorem read_opens_free_signs_crowded :
    ∃ (d : Dialect) (f : Findings) (ps : List Piece),
      d.read "@a(k = @b())@b x@a @@a @u@a @ \"b\"" = .ok f ∧ f.names = ["a", "b"] ∧
      f.markers.length = 2 ∧ f.markers.Perm (Piece.markersOf ps) ∧
      Token.scan 0 "@a(k = @b())@b x@a @@a @u@a @ \"b\"".toList =
        Piece.tokensOf ps ++ [.finishAt 33] ∧
      ∀ before t after, ps = before ++ .text t :: after → t.kind = .atSign →
        t.Follows (Piece.tokensOf before).getLast? ∨
          d.vocabulary.Ignores (Piece.tokensOf after) := by
  let b : MarkerType := ⟨"b", []⟩
  let d : Dialect := ⟨⟨[⟨"a", [("k", .marker b)]⟩, b], by simp [b]⟩, ⟨2⟩⟩
  have read : ∃ f, d.read "@a(k = @b())@b x@a @@a @u@a @ \"b\"" = .ok f ∧
      f.names = ["a", "b"] ∧ f.markers.length = 2 := ⟨_, by cbv, by cbv, by cbv⟩
  obtain ⟨f, read, names, two⟩ := read
  have region : Region.ofBody? "@a(k = @b())@b x@a @@a @u@a @ \"b\"" =
      some ⟨0, "@a(k = @b())@b x@a @@a @u@a @ \"b\"".toList⟩ := by cbv
  obtain ⟨ps, -, perm, -, tokens, -, text⟩ := read_opens_free_signs d _ f read
  exact ⟨d, f, ps, read, names, two, perm, tokens _ region, text⟩

end Dialect
end DocMarks
