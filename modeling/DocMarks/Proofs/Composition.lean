import DocMarks.Proofs.Findings
import DocMarks.Proofs.Framing
import DocMarks.Proofs.Grammar.Completeness
import DocMarks.Proofs.Search
import DocMarks.Proofs.Token.Append

namespace DocMarks

open Rule

namespace Cursor

variable {f e c c' d : Cursor}

/-- The end of a text, and the place in a longer one where its tokens were passed. What follows there
is neither the name of a marker nor a list of attributes. -/
structure Seam (f e : Cursor) : Prop where
  finish : f.current.kind = .finish
  last : f.ahead = []
  behind : e.behind = f.behind
  name : e.current.name? = none
  list : e.current.kind ≠ .parenOpen
  ends : e.Ends

def Alongside (f e c c' : Cursor) : Prop :=
  ∃ ts, (∀ t ∈ ts, t.kind ≠ .finish) ∧ c.Passes ts f ∧ c'.Passes ts e

namespace Alongside

theorem eq_of_finish (h : Alongside f e c c') (finish : c.current.kind = .finish) :
    c = f ∧ c' = e := by
  obtain ⟨ts, kinds, short, long⟩ := h
  cases ts with
  | nil => exact ⟨(passes_nil_iff.1 short).symm, (passes_nil_iff.1 long).symm⟩
  | cons t ts =>
    obtain ⟨rfl, -, -⟩ := passes_cons_iff.1 short
    exact absurd finish (kinds _ (.head _))

variable (seam : f.Seam e)

include seam

theorem advance (h : Alongside f e c c') (more : c.current.kind ≠ .finish) :
    c'.current = c.current ∧ c'.behind = c.behind ∧ Alongside f e c.step c'.step := by
  obtain ⟨ts, kinds, short, long⟩ := h
  have behind : c'.behind = c.behind := by
    have same := seam.behind
    rw [short.behind, long.behind] at same
    exact List.append_cancel_left same
  cases ts with
  | nil =>
    rw [← passes_nil_iff.1 short] at more
    exact absurd seam.finish more
  | cons t ts =>
    obtain ⟨first, -, short⟩ := passes_cons_iff.1 short
    obtain ⟨first', -, long⟩ := passes_cons_iff.1 long
    refine ⟨first'.trans first.symm, behind, ts, ?_, short, long⟩
    exact fun t ht => kinds t (.tail _ ht)

theorem name?_eq (h : Alongside f e c c') : c'.current.name? = c.current.name? := by
  by_cases finish : c.current.kind = .finish
  · obtain ⟨rfl, rfl⟩ := h.eq_of_finish finish
    rw [seam.name, Token.name?, finish]
  · rw [(h.advance seam finish).1]

theorem list_iff (h : Alongside f e c c') :
    c'.current.kind = .parenOpen ↔ c.current.kind = .parenOpen := by
  by_cases finish : c.current.kind = .finish
  · obtain ⟨rfl, rfl⟩ := h.eq_of_finish finish
    simp [seam.list, finish]
  · rw [(h.advance seam finish).1]

theorem ends (h : Alongside f e c c') : c.Ends ∧ c'.Ends := by
  obtain ⟨ts, -, short, long⟩ := h
  have : f.Ends := by
    intro t ht
    rw [upcoming, seam.last] at ht
    cases ht
    exact seam.finish
  exact ⟨short.ahead.ends_iff.2 this, long.ahead.ends_iff.2 seam.ends⟩

theorem isGlued_eq (h : Alongside f e c c') (more : c.current.kind ≠ .finish) :
    c'.isGlued = c.isGlued := by
  obtain ⟨current, behind, -⟩ := h.advance seam more
  rw [isGlued, isGlued, previous?, previous?, current, behind]

theorem passes {us : List Token} (h : Alongside f e c c') (passes : c.Passes us d) :
    ∃ d', c'.Passes us d' ∧ Alongside f e d d' := by
  obtain ⟨ts, kinds, short, long⟩ := h
  obtain ⟨rest, rfl, short'⟩ := short.split passes seam.last
  obtain ⟨d', passes', long'⟩ := passes_append_iff.1 long
  exact ⟨d', passes', rest, fun t ht => kinds t (List.mem_append_right _ ht), short', long'⟩

end Alongside
end Cursor

namespace Rule

variable {v : Vocabulary} {a : Allowance} {f e c c' d : Cursor}

theorem marker?_alongside {m? : Option Marker} (seam : f.Seam e) (h : Cursor.Alongside f e c c')
    (sign : c.current.kind = .atSign) (read : marker? v a c = .ok (m?, d)) :
    ∃ d', marker? v a c' = .ok (m?, d') ∧ Cursor.Alongside f e d d' := by
  have next := (h.advance seam (by simp [sign])).2.2
  have same := next.name?_eq seam
  rcases marker?_eq_ok_iff.1 read with ⟨unnamed, rfl, rfl⟩ | ⟨name, named, outcome⟩
  · exact ⟨c'.step, marker?_eq_ok_iff.2 (.inl ⟨same.trans unnamed, rfl, rfl⟩), next⟩
  have further : Cursor.Alongside f e c.step.step c'.step.step := by
    refine (next.advance seam ?_).2.2
    intro finish
    simp [Token.name?, finish] at named
  have opens_iff := further.list_iff seam
  rw [← same] at named
  rcases outcome with ⟨unknown, rfl, rfl⟩ | ⟨t, known, ⟨bare, rfl, rfl⟩ | ⟨m, opens, rfl, list⟩⟩
  · exact ⟨_, marker?_eq_ok_iff.2 (.inr ⟨name, named, .inl ⟨unknown, rfl, rfl⟩⟩), further⟩
  · exact ⟨_, marker?_eq_ok_iff.2 (.inr ⟨name, named, .inr ⟨t, known,
      .inl ⟨mt opens_iff.1 bare, rfl, rfl⟩⟩⟩), further⟩
  · -- what a list says is derived from the tokens that it passed, wherever they stand
    obtain ⟨n, left, list⟩ := nested_eq_ok_iff.1 list
    obtain ⟨ts, sets, passes, derived, set⟩ := attributes_sound t.sound (further.ends seam).1 list
    obtain ⟨d', passes', along⟩ := further.passes seam passes
    have list' : attributes t.rule? (.fresh t) ⟨a.limit, n⟩ c'.step.step = .ok (m, d') :=
      (derived.reaches ⟨a.limit, n⟩ passes' rfl set).ok_of_le le_rfl
    exact ⟨d', marker?_eq_ok_iff.2 (.inr ⟨name, named, .inr ⟨t, known, .inr ⟨m, opens_iff.2 opens, rfl,
      nested_eq_ok_iff.2 ⟨n, left, list'⟩⟩⟩⟩), along⟩

/-- A search that succeeds up to the seam goes on behind it. -/
theorem search_alongside {ms : List Marker} (seam : f.Seam e) (h : Cursor.Alongside f e c c')
    (read : search v a c = .ok ms) : search v a c' = (search v a e).map (ms ++ ·) := by
  induction hn : c.remaining using Nat.strongRecOn generalizing c c' ms with
  | ind n ih =>
    subst hn
    obtain ⟨ends, ends'⟩ := h.ends seam
    by_cases finish : c.current.kind = .finish
    · rw [search_finished finish] at read
      cases read
      rw [(h.eq_of_finish finish).2]
      cases search v a e with
      | error l => rfl
      | ok ns => rfl
    obtain ⟨current, -, next⟩ := h.advance seam finish
    have glued := h.isGlued_eq seam finish
    have shorter : c.remaining = 1 + c.step.remaining := (ends.passes_step finish).remaining_eq
    by_cases sign : c.current.kind = .atSign ∧ ¬ c.isGlued
    · rw [search_sign ends sign.1 sign.2] at read
      simp only [bind_eq_ok_iff, Prod.exists, Except.ok.injEq] at read
      obtain ⟨m?, d, hm, ns, hns, rfl⟩ := read
      obtain ⟨d', hm', along⟩ := marker?_alongside seam h sign.1 hm
      have := (marker?_step_ahead ends hm).remaining_le
      have rest := ih d.remaining (by omega) along hns rfl
      rw [search_sign ends' (current ▸ sign.1) (glued ▸ sign.2), hm']
      simp only [bind, Except.bind, rest]
      cases search v a e with
      | error l => rfl
      | ok es => simp [Except.map]
    · rw [search_text ends finish sign] at read
      rw [search_text ends' (current ▸ finish) (current ▸ glued ▸ sign)]
      exact ih c.step.remaining (by omega) next read rfl

theorem search_join {ts strays us : List Token} {t u : Token} {ms : List Marker}
    (kinds : ∀ t ∈ ts, t.kind ≠ .finish) (hstrays : ∀ t ∈ strays, t.kind = .stray)
    (finish : t.kind = .finish) (sign : u.kind = .atSign) (short : c.upcoming = ts ++ [t])
    (long : c'.upcoming = ts ++ (strays ++ u :: us)) (behind : c'.behind = c.behind)
    (ends : c'.Ends) (read : search v a c = .ok ms) :
    ∃ g, c'.Passes (ts ++ strays) g ∧ g.upcoming = u :: us ∧
      search v a c' = (search v a g).map (ms ++ ·) := by
  obtain ⟨f, toFinish, atFinish⟩ := Cursor.exists_passes short (by simp)
  obtain ⟨e, toSeam, atSeam⟩ := Cursor.exists_passes long (by simp)
  obtain ⟨g, toSign, atSign⟩ := Cursor.exists_passes atSeam (by simp)
  obtain ⟨rfl, last⟩ := List.cons.inj atFinish
  have ends' := toSeam.ends ends
  have text : e.current.kind = .stray ∨ e.current.kind = .atSign := by
    cases strays with
    | nil =>
      rw [(List.cons.inj atSeam).1]
      exact .inr sign
    | cons s strays =>
      rw [(List.cons.inj atSeam).1]
      exact .inl (hstrays s (.head _))
  have seam : f.Seam e := by
    refine ⟨finish, last, ?_, ?_, ?_, ends'⟩
    · rw [toSeam.behind, toFinish.behind, behind]
    · rcases text with h | h <;> simp [Token.name?, h]
    · rcases text with h | h <;> simp [h]
  refine ⟨g, toSeam.trans toSign, atSign, ?_⟩
  rw [search_alongside seam ⟨ts, kinds, toFinish, toSeam⟩ read, search_passes ends' toSign hstrays]

end Rule

namespace Token

variable {p n : Nat} {cs ds es : List Char}

theorem scan_join (closed : ∀ t ∈ scan p cs, ¬ t.Unclosed)
    (decoration : ∀ c ∈ ds, Region.isDecoration c) (gaps : ∀ c ∈ es, isGap c) (gap : es ≠ [])
    (hn : n = p + Text.width cs + Text.width ds + Text.width es) (rest : List Char) :
    ∃ ts strays, scan p cs = ts ++ [finishAt (p + Text.width cs)] ∧
      scan p (cs ++ (ds ++ (es ++ rest))) = ts ++ (strays ++ (scan 0 rest).map (·.shift n)) ∧
      (∀ t ∈ ts, t.kind ≠ .finish) ∧ (∀ t ∈ strays, t.kind = .stray) ∧
      ∀ t ∈ ts ++ strays, t.span.stop < n := by
  obtain ⟨c, es', rfl⟩ := List.exists_cons_of_ne_nil gap
  have inert : Inert (ds ++ (c :: es' ++ rest)) := by
    intro b hb
    apply isInert_of_isDecoration
    cases ds with
    | nil =>
      cases hb
      exact isDecoration_of_isGap (gaps _ (.head _))
    | cons d ds =>
      cases hb
      exact decoration _ (.head _)
  obtain ⟨ts, short, long, kinds⟩ := scan_append inert p cs closed
  obtain ⟨strays, cut, hstrays⟩ := scan_decoration (p + Text.width cs) decoration (c :: es' ++ rest)
  have wide : 0 < Text.width (c :: es') := Nat.add_pos_left c.utf8Size_pos _
  refine ⟨ts, strays, short, ?_, kinds, fun t ht => (hstrays t ht).1, ?_⟩
  · rw [long, cut, scan_gaps _ gaps, ← hn, ← scan_shift, Nat.zero_add]
  · intro t ht
    cases List.mem_append.1 ht with
    | inl ht =>
      have := stop_le_of_mem_scan (short ▸ List.mem_append_left _ ht)
      omega
    | inr ht =>
      have := (hstrays t ht).2
      omega

theorem scan_of_head? (p : Nat) (h : cs.head? = some '@') :
    ∃ t ts, scan p cs = t :: ts ∧ t.kind = .atSign := by
  obtain ⟨ds, rfl⟩ := List.head?_eq_some_iff.1 h
  obtain ⟨mark, lexed⟩ := @lexeme_mark '@' .atSign rfl ds
  exact ⟨_, _, scan_single p mark lexed, rfl⟩

end Token

theorem Cursor.inStep_shift {c : Cursor} {n : Nat} {cs : List Char}
    (upcoming : c.upcoming = (Token.scan 0 cs).map (·.shift n))
    (before : ∀ s ∈ c.previous?, s.span.stop < n) :
    (ofTokens (Token.scan 0 cs)).InStep (.shift n) c := by
  rw [InStep, previous?_ofTokens, upcoming_ofTokens, Token.finished_scan, upcoming]
  apply Token.paired_shift
  intro t _ _
  refine iff_of_false (by simp [Token.Follows]) ?_
  rintro ⟨s, hs, stop⟩
  have := before s hs
  simp only [Token.shift, Span.shift] at stop
  omega

namespace Dialect

variable {d : Dialect} {ms : List Marker}

theorem markersOf_eq_search (d : Dialect) (ts : List Token) :
    d.markersOf ts = search d.vocabulary d.allowance (.ofTokens ts) := rfl

theorem markersOf_append {p n : Nat} {cs ds es rest : List Char}
    (closed : ∀ t ∈ Token.scan p cs, ¬ t.Unclosed)
    (decoration : ∀ c ∈ ds, Region.isDecoration c) (gaps : ∀ c ∈ es, Token.isGap c) (gap : es ≠ [])
    (hn : n = p + Text.width cs + Text.width ds + Text.width es)
    (sign : rest.head? = some '@') (read : d.markersOf (Token.scan p cs) = .ok ms) :
    d.markersOf (Token.scan p (cs ++ (ds ++ (es ++ rest)))) =
      ((d.markersOf (Token.scan 0 rest)).mapError (·.shift n)).map (ms ++ ·) := by
  obtain ⟨ts, strays, short, long, kinds, hstrays, before⟩ :=
    Token.scan_join closed decoration gaps gap hn rest
  obtain ⟨u, us, scanned, kind⟩ := Token.scan_of_head? 0 sign
  have short' : (Cursor.ofTokens (Token.scan p cs)).upcoming =
      ts ++ [Token.finishAt (p + Text.width cs)] := by
    rw [Cursor.upcoming_ofTokens, Token.finished_scan, short]
  have long' : (Cursor.ofTokens (Token.scan p (cs ++ (ds ++ (es ++ rest))))).upcoming =
      ts ++ (strays ++ u.shift n :: us.map (·.shift n)) := by
    rw [Cursor.upcoming_ofTokens, Token.finished_scan, long, scanned, List.map_cons]
  have kind' : (u.shift n).kind = .atSign := kind
  obtain ⟨c, passes, upcoming, found⟩ := search_join kinds hstrays rfl kind' short' long'
    (by rw [Cursor.behind_ofTokens, Cursor.behind_ofTokens]) (Cursor.ends_ofTokens _) read
  have inStep : (Cursor.ofTokens (Token.scan 0 rest)).InStep (.shift n) c := by
    apply Cursor.inStep_shift
    · rw [upcoming, scanned, List.map_cons]
    · intro s hs
      rw [Cursor.previous?, passes.behind, Cursor.behind_ofTokens, List.append_nil] at hs
      exact before s (List.mem_reverse.1 (List.mem_of_head? hs))
  rw [markersOf_eq_search, markersOf_eq_search, found, (search_agree inStep).eq_of_shift]

theorem markers_append {b₁ sep b₂ : String} (known : d.vocabulary.isEmpty = false)
    (closed : ∀ r, Region.ofBody? b₁ = some r → ∀ t ∈ Token.scan r.start r.text, ¬ t.Unclosed)
    (gaps : ∀ c ∈ sep.toList, Token.isGap c) (last : ∃ c ∈ sep.toList.getLast?, Region.opens c)
    (sign : b₂.toList.head? = some '@') (read : d.markers b₁ = .ok ms) :
    d.markers (b₁ ++ sep ++ b₂) =
      ((d.markers b₂).mapError
        (ReadError.moved (Text.width (b₁ ++ sep).toList) (b₁ ++ sep ++ b₂))).map (ms ++ ·) := by
  obtain ⟨c, last, opens⟩ := last
  have body : (b₁ ++ sep ++ b₂).toList = b₁.toList ++ (sep.toList ++ b₂.toList) := by simp
  cases hr : Region.ofBody? b₁ with
  | none =>
    rw [markers_of_none known hr] at read
    cases read
    have plain : '@' ∉ sep.toList := fun h => absurd (gaps _ h) (by decide)
    have region := Region.ofChars?_append_of_none hr plain last opens b₂.toList
    rw [← body, ← String.toList_append] at region
    rw [markers_moved region]
    cases d.markers b₂ with
    | error e => rfl
    | ok ns => rfl
  | some r =>
    obtain ⟨after, decoration, width, region⟩ :=
      Region.ofChars?_append_of_some hr sep.toList sign
    rw [← body] at region
    have region₂ := Region.ofChars?_of_head? sign
    rw [markers_eq_ok_iff known hr] at read
    have gap : sep.toList ≠ [] := by
      intro empty
      simp [empty] at last
    have joined := markersOf_append (closed r hr) decoration gaps gap rfl
      (Region.head?_trimEnd sign) read
    rw [markers_of_region known region, markers_of_region known region₂, joined, width,
      ← Text.width_append, ← String.toList_append]
    cases d.markersOf (Token.scan 0 (Text.trimEnd Region.isDecoration b₂.toList)) with
    | error l => rfl
    | ok ns => rfl

/-- A comment that was read goes on with another one, which opens at its start and stands behind a
gap: the findings of the second extend those of the first, and its faults are moved. -/
theorem read_append (d : Dialect) (b₁ sep b₂ : String) (f₁ : Findings)
    (known : d.vocabulary.isEmpty = false)
    (closed : ∀ r, Region.ofBody? b₁ = some r → ∀ t ∈ Token.scan r.start r.text, ¬ t.Unclosed)
    (gaps : ∀ c ∈ sep.toList, Token.isGap c) (last : ∃ c ∈ sep.toList.getLast?, Region.opens c)
    (sign : b₂.toList.head? = some '@') (first : d.read b₁ = .ok f₁) :
    (∀ f₂, d.read b₂ = .ok f₂ →
      d.read (b₁ ++ sep ++ b₂) = .ok (f₁.extend f₂) ∧
        ∀ name, (f₁.extend f₂).get? name = Finding.join? (f₁.get? name) (f₂.get? name)) ∧
      ∀ e, d.read b₂ = .error e →
        d.read (b₁ ++ sep ++ b₂) =
          .error (e.moved (Text.width (b₁ ++ sep).toList) (b₁ ++ sep ++ b₂)) := by
  obtain ⟨ms, hms, rfl⟩ := read_eq_ok_iff.1 first
  have joined := markers_append known closed gaps last sign hms
  constructor
  · intro f₂ second
    obtain ⟨ns, hns, rfl⟩ := read_eq_ok_iff.1 second
    rw [hns] at joined
    rw [← Findings.ofMarkers_append]
    refine ⟨read_eq_ok_iff.2 ⟨_, joined, rfl⟩, ?_⟩
    intro name
    rw [Findings.ofMarkers_append, Findings.get?_extend]
  · intro e second
    rw [read_eq_error_iff.1 second] at joined
    exact read_eq_error_iff.2 joined

theorem read_append_repeated :
    ∃ (d : Dialect) (t : MarkerType), d.vocabulary.isEmpty = false ∧
      (∀ r, Region.ofBody? "é @p /" = some r → ∀ t ∈ Token.scan r.start r.text, ¬ t.Unclosed) ∧
      (∀ c ∈ "\n * ".toList, Token.isGap c) ∧ (∃ c ∈ "\n * ".toList.getLast?, Region.opens c) ∧
      "@p(k=x)".toList.head? = some '@' ∧ "@p(j)".toList.head? = some '@' ∧
      d.read "é @p /" = .ok ⟨[("p", .once (.fresh t))]⟩ ∧
      d.read ("é @p /" ++ "\n * " ++ "@p(k=x)") =
        .ok ⟨[("p", .repeated [.fresh t, ⟨t, [("k", .string "x")]⟩])]⟩ ∧
      d.read ("é @p /" ++ "\n * " ++ "@p(j)") =
        .error (.fault ⟨.unknownAttribute "p" "j", ⟨14, 15⟩⟩ ("é @p /" ++ "\n * " ++ "@p(j)")) := by
  let t : MarkerType := ⟨"p", [("k", .scalar .string)]⟩
  let d : Dialect := ⟨⟨[t], by simp⟩, ⟨1⟩⟩
  have region : Region.ofBody? "é @p /" = some ⟨3, "@p".toList⟩ := by cbv
  have closed : ∀ r, Region.ofBody? "é @p /" = some r →
      ∀ t ∈ Token.scan r.start r.text, ¬ t.Unclosed := by
    intro r hr
    rw [region] at hr
    cases hr
    decide +kernel
  have gaps : ∀ c ∈ "\n * ".toList, Token.isGap c := List.all_eq_true.1 (by decide)
  have last : ∃ c ∈ "\n * ".toList.getLast?, Region.opens c := ⟨' ', by decide, by decide⟩
  have first : d.read "é @p /" = .ok ⟨[("p", .once (.fresh t))]⟩ := by cbv
  have second : d.read "@p(k=x)" = .ok ⟨[("p", .once ⟨t, [("k", .string "x")]⟩)]⟩ := by cbv
  have fault : d.read "@p(j)" =
      .error (.fault ⟨.unknownAttribute "p" "j", ⟨3, 4⟩⟩ "@p(j)") := by cbv
  refine ⟨d, t, rfl, closed, gaps, last, by decide, by decide, first, ?_, ?_⟩
  · exact ((read_append d _ _ _ _ rfl closed gaps last (by decide) first).1 _ second).1
  · exact (read_append d _ _ _ _ rfl closed gaps last (by decide) first).2 _ fault

end Dialect
end DocMarks
