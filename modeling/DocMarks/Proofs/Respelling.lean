import Mathlib
import DocMarks.Proofs.Grammar.Respelling
import DocMarks.Proofs.Occurrence

namespace DocMarks

open Rule

def Token.heading (ts : List Token) : Option (Token.Kind × Option String) :=
  ts.head?.map fun t => (t.kind, t.name?)

theorem Token.exists_head_of_heading {ts us : List Token} (same : heading us = heading ts)
    {u : Token} (h : u ∈ us.head?) : ∃ t ∈ ts.head?, u.kind = t.kind ∧ u.name? = t.name? := by
  rw [heading, Option.mem_def.1 h] at same
  obtain ⟨t, head, same⟩ := Option.map_eq_some_iff.1 same.symm
  simp only [Prod.mk.injEq] at same
  exact ⟨t, head, same.1.symm, same.2.symm⟩

theorem Vocabulary.Ignores.of_heading {v : Vocabulary} {ts us : List Token}
    (same : Token.heading us = Token.heading ts) (h : v.Ignores ts) : v.Ignores us := by
  intro u hu name named
  obtain ⟨t, ht, -, names⟩ := Token.exists_head_of_heading same hu
  exact h t ht name (names ▸ named)

structure Occurrence.Alike (n : Nat) (o o' : Occurrence) : Prop where
  marker : o'.marker = o.marker
  sign : o'.sign.spelling = o.sign.spelling
  name : o'.name.name? = o.name.name?
  bare : o.list = [] → o'.list = []
  list : ∀ k sets, n = k + 1 → o.marker.type.DerivesAttributes k o.list sets →
    (Marker.fresh o.marker.type).setAll sets = .ok o.marker →
    ∃ sets', o.marker.type.DerivesAttributes k o'.list sets' ∧
      (Marker.fresh o.marker.type).setAll sets' = .ok o.marker

theorem Occurrence.Reads.alike {v : Vocabulary} {n : Nat} {o o' : Occurrence}
    {rest rest' : List Token} (reads : o.Reads v n rest) (h : o.Alike n o')
    (same : Token.heading rest' = Token.heading rest) : o'.Reads v n rest' := by
  refine ⟨(Token.Pairing.spelling.kind_eq h.sign).trans reads.sign, ?_, ?_⟩
  · rw [h.name, h.marker]
    exact reads.name
  rw [h.marker]
  rcases reads.list with ⟨empty, fresh, bare⟩ | ⟨k, sets, depth, derived, set⟩
  · refine .inl ⟨h.bare empty, fresh, fun u hu => ?_⟩
    obtain ⟨t, ht, kind, -⟩ := Token.exists_head_of_heading same hu
    exact kind ▸ bare t ht
  · obtain ⟨sets', derived', set'⟩ := h.list k sets depth derived set
    exact .inr ⟨k, sets', depth, derived', set'⟩

namespace Piece

inductive Respelled (n : Nat) : List Piece → List Piece → Prop
  | list {k before o ts after} : n = k + 1 → o.marker.type.RespelledAttributes k o.list ts →
      Respelled n (before ++ .marker o :: after) (before ++ .marker { o with list := ts } :: after)

/-- The tokens that follow `q?`, up to the end of the text, spell the pieces, which follow `p?`. An
at-sign that opens a piece is glued as it is there; inside lists of attributes spaces do not
count. -/
inductive LaidOut : Option Token → Option Token → List Piece → List Token → Prop
  | finish {p? q? u us} : u.kind = .finish → LaidOut p? q? [] (u :: us)
  | text {p? q? t u ps us} : u.spelling = t.spelling →
      (t.kind = .atSign → (u.Follows q? ↔ t.Follows p?)) → LaidOut (some t) (some u) ps us →
      LaidOut p? q? (.text t :: ps) (u :: us)
  | marker {p? q? o ts ps us} : ts.map Token.spelling = o.tokens.map Token.spelling →
      (∀ u ∈ ts.head?, u.Follows q? ↔ o.sign.Follows p?) →
      LaidOut o.tokens.getLast? ts.getLast? ps us → LaidOut p? q? (.marker o :: ps) (ts ++ us)

def Spelled (body : String) (ps : List Piece) : Prop :=
  match Region.ofBody? body with
  | none => ps = []
  | some r => LaidOut none none ps (Token.scan r.start r.text)

inductive Alike (n : Nat) : Option Token → Option Token → List Piece → List Piece → Prop
  | nil {p? q?} : Alike n p? q? [] []
  | text {p? q? t u ps qs} : u.spelling = t.spelling →
      (t.kind = .atSign → (u.Follows q? ↔ t.Follows p?)) → Alike n (some t) (some u) ps qs →
      Alike n p? q? (.text t :: ps) (.text u :: qs)
  | marker {p? q? o o' ps qs} : o.Alike n o' → (o'.sign.Follows q? ↔ o.sign.Follows p?) →
      Alike n o.tokens.getLast? o'.tokens.getLast? ps qs →
      Alike n p? q? (.marker o :: ps) (.marker o' :: qs)

namespace Alike

variable {n : Nat} {p? q? : Option Token} {ps qs : List Piece}

theorem refl (p? : Option Token) (ps : List Piece) : Alike n p? p? ps ps := by
  induction ps generalizing p? with
  | nil => exact .nil
  | cons p ps ih =>
    cases p with
    | text t => exact .text rfl (fun _ => Iff.rfl) (ih _)
    | marker o =>
      exact .marker ⟨rfl, rfl, rfl, id, fun _ sets _ list set => ⟨sets, list, set⟩⟩ Iff.rfl (ih _)

theorem of_respelled (h : Respelled n ps qs) : Alike n p? p? ps qs := by
  obtain @⟨k, before, o, ts, after, depth, list⟩ := h
  induction before generalizing p? with
  | nil =>
    have last : ({ o with list := ts } : Occurrence).tokens.getLast? = o.tokens.getLast? := by
      simp only [Occurrence.tokens, List.getLast?_cons, list.getLast?_eq]
    refine .marker ⟨rfl, rfl, rfl, ?_, ?_⟩ Iff.rfl ?_
    · intro empty
      simpa [empty] using list.getLast?_eq
    · intro k' sets depth' derived set
      obtain rfl : k' = k := by omega
      exact list.derives_marker derived set
    · rw [last]
      exact refl _ after
  | cons p before ih =>
    cases p with
    | text t => exact .text rfl (fun _ => Iff.rfl) ih
    | marker o' =>
      exact .marker ⟨rfl, rfl, rfl, id, fun _ sets _ list set => ⟨sets, list, set⟩⟩ Iff.rfl ih

theorem of_laidOut {us : List Token} (h : LaidOut p? q? ps us) :
    ∃ qs t rest, t.kind = .finish ∧ us = tokensOf qs ++ t :: rest ∧ Alike n p? q? ps qs := by
  induction h with
  | @finish _ _ u us finish => exact ⟨[], u, us, finish, rfl, .nil⟩
  | @text _ _ t u _ _ same glued _ ih =>
    obtain ⟨qs, t, rest, finish, rfl, alike⟩ := ih
    exact ⟨.text u :: qs, t, rest, finish, rfl, .text same glued alike⟩
  | @marker _ _ o _ _ _ same glued _ ih =>
    obtain ⟨qs, t, rest, finish, rfl, alike⟩ := ih
    obtain ⟨sign, _, rfl, signs, same⟩ := Token.map_spelling_eq_cons same
    obtain ⟨name, list, rfl, names, same⟩ := Token.map_spelling_eq_cons same
    let o' : Occurrence := ⟨sign, name, list, o.marker⟩
    refine ⟨.marker o' :: qs, t, rest, finish, by simp [tokens, Occurrence.tokens, o'], ?_⟩
    refine .marker ⟨rfl, signs, ?_, ?_, ?_⟩ (glued sign rfl) alike
    · exact Token.Pairing.name?_eq (P := .spelling) names
    · intro empty
      rw [empty] at same
      exact List.map_eq_nil_iff.1 same
    · intro k sets _ derived set
      exact ⟨sets, derived.of_spelling same, set⟩

theorem markersOf_eq (h : Alike n p? q? ps qs) : markersOf qs = markersOf ps := by
  induction h with
  | nil => rfl
  | text _ _ _ ih => exact ih
  | marker alike _ _ ih => rw [markersOf_marker, markersOf_marker, alike.marker, ih]

theorem heading_eq {t u : Token} (h : Alike n p? q? ps qs) (old : t.kind = .finish)
    (new : u.kind = .finish) (ts us : List Token) :
    Token.heading (tokensOf qs ++ u :: us) = Token.heading (tokensOf ps ++ t :: ts) := by
  have first {t u : Token} {ts us : List Token} (same : u.spelling = t.spelling) :
      Token.heading (u :: us) = Token.heading (t :: ts) := by
    simp [Token.heading, Token.Pairing.spelling.kind_eq same,
      Token.Pairing.name?_eq (P := .spelling) same]
  cases h with
  | nil => simp [tokensOf, Token.heading, Token.name?, old, new]
  | text same _ _ => exact first same
  | marker alike _ _ => exact first alike.sign

end Alike
end Piece

namespace Cut

variable {v : Vocabulary} {n : Nat} {p? q? : Option Token} {ts : List Token} {ps qs : List Piece}

theorem alike (cut : Cut v n p? ts ps) (h : Piece.Alike n p? q? ps qs) {u : Token}
    (finish : u.kind = .finish) (us : List Token) :
    Cut v n q? (Piece.tokensOf qs ++ u :: us) qs := by
  induction cut generalizing q? qs with
  | finish _ =>
    cases h
    exact .finish finish
  | text more passed cut ih =>
    obtain ⟨t, rest, old, rfl⟩ := cut.tokens_eq
    cases h with
    | text same glued alike =>
      have kind := Token.Pairing.spelling.kind_eq same
      have heading := alike.heading_eq old finish rest us
      refine .text (kind ▸ more) (fun sign => ?_) (ih alike)
      rw [kind] at sign
      exact (passed sign).imp (glued sign).2 (Vocabulary.Ignores.of_heading heading)
  | marker free reads cut ih =>
    obtain ⟨t, rest, old, rfl⟩ := cut.tokens_eq
    cases h with
    | marker alike glued later =>
      have heading := later.heading_eq old finish rest us
      rw [Piece.tokensOf_cons, List.append_assoc]
      exact .marker (fun h => free (glued.1 h)) (reads.alike alike heading) (ih later)

end Cut

/-- Whatever changes of spelling are made, the pieces still are those of some tokens, and their
markers stay. -/
theorem Cut.respelled {v : Vocabulary} {n : Nat} {p? : Option Token} {ts : List Token}
    {ps qs : List Piece} (cut : Cut v n p? ts ps)
    (steps : Relation.ReflTransGen (Piece.Respelled n) ps qs) :
    (∃ us, Cut v n p? us qs) ∧ Piece.markersOf qs = Piece.markersOf ps := by
  induction steps with
  | refl => exact ⟨⟨ts, cut⟩, rfl⟩
  | tail _ step ih =>
    obtain ⟨⟨us, cut⟩, markers⟩ := ih
    have alike : Piece.Alike n p? p? _ _ := .of_respelled step
    obtain ⟨t, rest, finish, -⟩ := cut.tokens_eq
    exact ⟨⟨_, cut.alike alike finish rest⟩, alike.markersOf_eq.trans markers⟩

theorem Cut.laidOut {v : Vocabulary} {n : Nat} {p? q? : Option Token} {ts us : List Token}
    {ps : List Piece} (cut : Cut v n p? ts ps) (h : Piece.LaidOut p? q? ps us) :
    ∃ qs, Cut v n q? us qs ∧ Piece.markersOf qs = Piece.markersOf ps := by
  obtain ⟨qs, t, rest, finish, rfl, alike⟩ := Piece.Alike.of_laidOut h
  exact ⟨qs, cut.alike alike finish rest, alike.markersOf_eq⟩

namespace Dialect

theorem Cuts.exists_cut {d : Dialect} {body : String} {ps : List Piece} (cuts : d.Cuts body ps) :
    ∃ ts, Cut d.vocabulary d.limits.maxDepth none ts ps := by
  cases region : Region.ofBody? body with
  | none =>
    rw [(cuts_of_none region).1 cuts]
    exact ⟨[.finishAt 0], .finish rfl⟩
  | some r => exact ⟨_, (cuts_of_region region).1 cuts⟩

theorem Cuts.respelled {d : Dialect} {body body' : String} {ps qs : List Piece}
    (cuts : d.Cuts body ps)
    (steps : Relation.ReflTransGen (Piece.Respelled d.limits.maxDepth) ps qs)
    (spelled : Piece.Spelled body' qs) :
    ∃ rs, d.Cuts body' rs ∧ Piece.markersOf rs = Piece.markersOf ps := by
  obtain ⟨ts, cut⟩ := cuts.exists_cut
  obtain ⟨⟨us, cut⟩, markers⟩ := cut.respelled steps
  cases region : Region.ofBody? body' with
  | none =>
    rw [Piece.Spelled, region] at spelled
    refine ⟨[], (cuts_of_none region).2 rfl, ?_⟩
    rw [← markers, spelled]
  | some r =>
    rw [Piece.Spelled, region] at spelled
    obtain ⟨rs, cut, same⟩ := cut.laidOut spelled
    exact ⟨rs, (cuts_of_region region).2 cut, same.trans markers⟩

/-- Inside the lists of attributes of a comment that is read, tags of nested markers may be added or
left out, names that are values or keys may be quoted, and commas may stand or not wherever an item
may start: the findings stay. -/
theorem read_respelled (d : Dialect) (body : String) (f : Findings) (h : d.read body = .ok f) :
    (∃ ps, d.Cuts body ps) ∧
    ∀ ps qs body', d.Cuts body ps →
      Relation.ReflTransGen (Piece.Respelled d.limits.maxDepth) ps qs → Piece.Spelled body' qs →
      d.read body' = .ok f := by
  have known := known_of_read h
  obtain ⟨ps, cuts, -⟩ := (read_eq_ok_iff_cuts known).1 h
  refine ⟨⟨ps, cuts⟩, ?_⟩
  intro ps qs body' cuts steps spelled
  obtain ⟨rs, cuts', markers⟩ := cuts.respelled steps spelled
  have read := (read_eq_ok_iff_cuts known).2 ⟨ps, cuts, rfl⟩
  rw [h] at read
  cases read
  exact (read_eq_ok_iff_cuts known).2 ⟨rs, cuts', by rw [markers]⟩

theorem read_respelled_nested :
    ∃ (d : Dialect) (f : Findings) (ps qs : List Piece),
      d.read "@p(k=\x7b(x=u)\x7d)" = .ok f ∧ f.names = ["p"] ∧
      d.Cuts "@p(k=\x7b(x=u)\x7d)" ps ∧
      Relation.ReflTransGen (Piece.Respelled d.limits.maxDepth) ps qs ∧
      Piece.Spelled "@p(k=\x7b@q (x=\"u\"),\x7d)" qs ∧
      d.read "@p(k=\x7b@q (x=\"u\"),\x7d)" = .ok f := by
  let q : MarkerType := ⟨"q", [("x", .scalar .string)]⟩
  let p : MarkerType := ⟨"p", [("k", .tableOf (.marker q))]⟩
  let d : Dialect := ⟨⟨[p], by simp⟩, ⟨3⟩⟩
  let token (kind : Token.Kind) (text : String) (start : Nat) : Token :=
    ⟨kind, text, ⟨start, start + text.utf8ByteSize⟩⟩
  let item (x : Token) : List Token :=
    [token .parenOpen "(" 6, token .name "x" 7, token .equals "=" 8, x, token .parenClose ")" 10]
  let list (items : List Token) : List Token :=
    token .parenOpen "(" 2 :: token .name "k" 3 :: token .equals "=" 4 ::
      token .braceOpen "\x7b" 5 ::
      (items ++ [token .braceClose "\x7d" 11, token .parenClose ")" 12])
  let sets := [("k", Value.table (Table.writeAll {} [(none, .marker ⟨q, [("x", .string "u")]⟩)]))]
  let o (items : List Token) : Occurrence :=
    ⟨token .atSign "@" 0, token .name "p" 1, list items, ⟨p, sets⟩⟩
  let tag := [token .atSign "@" 0, token .name "q" 0]
  let bare := token .name "u" 9
  let quoted := token .string "\"u\"" 9
  let comma := token .comma "," 0
  have quotes : bare.Quotes quoted := ⟨rfl, by cbv, rfl, rfl⟩
  have inside : ∀ x, literalOf x = .ok (.string "u") →
      q.DerivesAttributes 0 (item x) [("x", .string "u")] :=
    fun x h => .list rfl (.of_entry rfl rfl rfl (.scalar h rfl)) rfl
  have tagged : p.RespelledAttributes 2 (list (item bare)) (list (tag ++ item bare)) :=
    .list rfl .nil (.value rfl rfl rfl
      (.table rfl .nil (.pushed (.tag (.added rfl rfl) (inside bare rfl))) .nil rfl)) .nil rfl
  have quotedInside :
      p.RespelledAttributes 2 (list (tag ++ item bare)) (list (tag ++ item quoted)) :=
    .list rfl .nil (.value rfl rfl rfl (.table rfl .nil (.pushed (.tagged rfl rfl
      (.list rfl .nil (.value rfl rfl rfl (.quotes quotes (.scalar rfl rfl))) .nil rfl)))
      .nil rfl)) .nil rfl
  have separated : p.RespelledAttributes 2 (list (tag ++ item quoted))
      (list (tag ++ item quoted ++ [comma])) :=
    .list rfl .nil (.value rfl rfl rfl (.table rfl
      (.of_pushed (.tagged rfl rfl (inside quoted quotes.literalOf_eq.2) rfl)) (.comma (.added rfl))
      .nil rfl)) .nil rfl
  have step {is js : List Token} (h : p.RespelledAttributes 2 (list is) (list js)) :
      Piece.Respelled 3 [.marker (o is)] [.marker (o js)] :=
    @Piece.Respelled.list 3 2 [] (o is) (list js) [] rfl h
  have steps := ((Relation.ReflTransGen.single (step tagged)).tail (step quotedInside)).tail
    (step separated)
  have scanned : Token.scan 0 "@p(k=\x7b(x=u)\x7d)".toList =
      (o (item bare)).tokens ++ [.finishAt 13] := by cbv
  have cuts : d.Cuts "@p(k=\x7b(x=u)\x7d)" [.marker (o (item bare))] := by
    refine (cuts_of_region (r := ⟨0, "@p(k=\x7b(x=u)\x7d)".toList⟩) (by cbv)).2 ?_
    rw [scanned]
    refine .marker (by simp [Token.Follows]) ⟨rfl, ⟨"p", rfl, rfl⟩, .inr ⟨2, sets, rfl, ?_, rfl⟩⟩
      (.finish rfl)
    exact .list rfl (.of_entry rfl rfl rfl
      (.table rfl (.of_pushed (.untagged (inside bare rfl) rfl)) rfl)) rfl
  have spelled : Piece.Spelled "@p(k=\x7b@q (x=\"u\"),\x7d)"
      [.marker (o (tag ++ item quoted ++ [comma]))] := by
    obtain ⟨ts, scanned, same⟩ : ∃ ts,
        Token.scan 0 "@p(k=\x7b@q (x=\"u\"),\x7d)".toList = ts ++ [.finishAt 19] ∧
        ts.map Token.spelling =
          (o (tag ++ item quoted ++ [comma])).tokens.map Token.spelling :=
      ⟨(Token.scan 0 "@p(k=\x7b@q (x=\"u\"),\x7d)".toList).dropLast, by cbv, by cbv⟩
    have region : Region.ofBody? "@p(k=\x7b@q (x=\"u\"),\x7d)" =
      some ⟨0, "@p(k=\x7b@q (x=\"u\"),\x7d)".toList⟩ := by cbv
    rw [Piece.Spelled, region]
    simp only [scanned]
    exact .marker same (by simp [Token.Follows]) (.finish rfl)
  obtain ⟨f, read, names⟩ : ∃ f, d.read "@p(k=\x7b(x=u)\x7d)" = .ok f ∧ f.names = ["p"] :=
    ⟨_, by cbv, by cbv⟩
  have respelled := (read_respelled d _ f read).2 _ _ _ cuts steps spelled
  exact ⟨d, f, [.marker (o (item bare))], [.marker (o (tag ++ item quoted ++ [comma]))], read,
    names, cuts, steps, spelled, respelled⟩

end Dialect

end DocMarks
