import DocMarks.Proofs.Grammar.Respelling
import DocMarks.Proofs.Token.Append
import DocMarks.Proofs.Token.Longest

namespace DocMarks.Token

variable {c : Char} {cs ds rest : List Char} {kind : Kind} {t : Token} {ts : List Token}
  {source : String} {base : Nat}

theorem eq_nil_of_unclosed (h : lexeme '"' (ds ++ rest) = (.stray, '"' :: ds)) : rest = [] := by
  rw [lexeme, if_pos rfl] at h
  cases closed : closing? (ds ++ rest) with
  | some text => simp [closed] at h
  | none => simpa [closed] using h

/-- A lexeme is one without the text that it was cut off from. -/
theorem lexeme_of_append (h : lexeme c (ds ++ rest) = (kind, c :: ds)) :
    lexeme c ds = (kind, c :: ds) := by
  by_cases quote : c = '"'
  · subst quote
    cases closed : closing? (ds ++ rest) with
    | some text =>
      rw [lexeme, if_pos rfl, closed] at h
      obtain ⟨rfl, same⟩ := Prod.mk.inj h
      rw [(List.cons.inj same).2] at closed
      exact lexeme_eq_string_iff.2 ⟨rfl, closing?_self closed⟩
    | none =>
      have unclosed := h
      rw [lexeme, if_pos rfl, closed] at unclosed
      obtain ⟨rfl, -⟩ := Prod.mk.inj unclosed
      rwa [eq_nil_of_unclosed h, List.append_nil] at h
  · by_cases token : kind = .stray
    · subst token
      rcases stray_of_lexeme h with rfl | ⟨hc, -⟩
      · obtain ⟨kind, ds, rest', empty, lexed⟩ := lexeme_eq_cons c []
        obtain ⟨rfl, rfl⟩ := List.append_eq_nil_iff.1 empty.symm
        -- a pattern that has the character by itself would have it in front of the text as well
        have token : kind = .stray := by
          by_contra token
          have alone := mem_pattern_of_lexeme quote lexed token
          have longer := (length_le_lexeme quote (List.prefix_append [c] rest) alone).1
          exact longer (congrArg Prod.fst h)
        rwa [token] at lexed
      · exact absurd hc quote
    · exact lexeme_self (mem_pattern_of_lexeme quote h token)

theorem lexes_of_mem_ofText (h : t ∈ ofText source base) (more : t.kind ≠ .finish) :
    t.kind.Lexes t.text := by
  obtain ⟨_, _, -, -, ⟨finish, -⟩ | ⟨c, ds, text, gap, lexed⟩⟩ := mem_scan h
  · exact absurd finish more
  · exact Kind.lexes_iff.2 ⟨c, ds, text, gap, lexeme_of_append lexed⟩

theorem stop_of_unclosed (h : t ∈ ofText source base) (unclosed : t.Unclosed) :
    t.span.stop = base + source.utf8ByteSize := by
  obtain ⟨stray, quote⟩ := unclosed
  obtain ⟨before, after, text, span, ⟨finish, -⟩ | ⟨c, ds, ht, -, lexed⟩⟩ := mem_scan h
  · rw [stray] at finish
    cases finish
  · rw [ht] at quote
    cases quote
    rw [stray] at lexed
    rw [eq_nil_of_unclosed lexed, List.append_nil] at text
    rw [span, Text.utf8ByteSize_eq_width, text, Text.width_append, Nat.add_assoc]

theorem ofText_eq_append (source : String) (base : Nat) :
    ∃ ts, ofText source base = ts ++ [finishAt (base + source.utf8ByteSize)] ∧
      (∀ t ∈ ts, t.kind ≠ .finish ∧ t.kind.Lexes t.text) ∧
      ts.Pairwise fun t _ => ¬ t.Unclosed := by
  obtain ⟨ts, cut, kinds⟩ := scan_eq_append base source.toList
  rw [← Text.utf8ByteSize_eq_width, ← ofText] at cut
  have mem {t : Token} (h : t ∈ ts) : t ∈ ofText source base := by
    rw [cut]
    exact List.mem_append_left _ h
  refine ⟨ts, cut, fun t ht => ⟨kinds t ht, lexes_of_mem_ofText (mem ht) (kinds t ht)⟩, ?_⟩
  have ordered := (pairwise_scan base source.toList).1
  rw [← ofText, cut] at ordered
  refine (List.pairwise_append.1 ordered).1.imp_of_mem fun {t u} ht hu after unclosed => ?_
  have last := stop_of_unclosed (mem ht) unclosed
  have later := cutFrom_of_mem_ofText (mem hu) (kinds u hu)
  have := later.nonempty
  have := later.inside.2
  omega

def spaced (ts : List Token) : String :=
  " ".intercalate ((ts.filter (·.kind != .finish)).map Token.text)

theorem scan_lexes (h : t.kind.Lexes t.text) (inert : Inert rest)
    (closed : t.Unclosed → rest = []) (p : Nat) :
    ∃ span q, scan p (t.text.toList ++ rest) = ⟨t.kind, t.text, span⟩ :: scan q rest := by
  obtain ⟨c, cs, text, gap, lexed⟩ := Kind.lexes_iff.1 h
  have lexed' : lexeme c (cs ++ rest) = (t.kind, c :: cs) := by
    by_cases unclosed : t.Unclosed
    · rwa [closed unclosed, List.append_nil]
    · apply lexeme_append inert lexed
      rintro ⟨stray, rfl⟩
      exact unclosed ⟨stray, by rw [text]; rfl⟩
  rw [text, List.cons_append, scan_lexeme p gap lexed', ← text, String.ofList_toList]
  exact ⟨_, _, rfl⟩

theorem scan_intercalate (lexes : ∀ t ∈ ts, t.kind.Lexes t.text)
    (closed : ts.Pairwise fun t _ => ¬ t.Unclosed) (p : Nat) :
    (scan p (" ".intercalate (ts.map Token.text)).toList).map spelling =
      ts.map spelling ++ [(.finish, "")] := by
  induction ts generalizing p with
  | nil => rfl
  | cons t ts ih =>
    rw [List.forall_mem_cons] at lexes
    rw [List.pairwise_cons] at closed
    cases ts with
    | nil =>
      have inert : Inert [] := fun _ h => nomatch h
      obtain ⟨span, q, cut⟩ := scan_lexes lexes.1 inert (fun _ => rfl) p
      rw [List.append_nil] at cut
      rw [List.map_singleton, String.intercalate_singleton, cut]
      rfl
    | cons u ts =>
      rw [List.map_cons, List.map_cons, String.intercalate_cons_cons, String.toList_append,
        String.toList_append, List.append_assoc, ← List.map_cons]
      have inert : Inert (" ".toList ++ (" ".intercalate ((u :: ts).map Token.text)).toList) := by
        rintro _ ⟨⟩
        rfl
      obtain ⟨span, q, cut⟩ := scan_lexes lexes.1 inert
        (fun unclosed => absurd unclosed (closed.1 u (.head _))) p
      rw [cut, List.map_cons]
      exact congrArg (t.spelling :: ·) (ih lexes.2 closed.2 (q + 1))

/-- Tokens that are written with single spaces between them and cut again are the same tokens, in
the same order and with the same texts. -/
theorem ofText_spaced (source : String) (base base' : Nat) :
    (ofText (spaced (ofText source base)) base').map spelling =
      (ofText source base).map spelling := by
  obtain ⟨ts, cut, tokens, closed⟩ := ofText_eq_append source base
  have text : spaced (ofText source base) = " ".intercalate (ts.map Token.text) := by
    have keep : ts.filter (·.kind != .finish) = ts :=
      List.filter_eq_self.2 fun t ht => by simpa using (tokens t ht).1
    rw [spaced, cut, List.filter_append, keep]
    simp [finishAt]
  rw [text, ofText, scan_intercalate (fun t ht => (tokens t ht).2) closed, cut, List.map_append]
  rfl

example : spaced (ofText "+1.e\"a\"\"\"b*é\"c " 7) = "+1 . e \"a\"\"\" b é \"c " := by decide

end DocMarks.Token
