import Mathlib
import DocMarks.Command.Outcome
import DocMarks.Proofs.Checked
import DocMarks.Proofs.DocComment

namespace DocMarks

def Dialect.Fails (d : Dialect) (source : String) : Prop :=
  ∃ c ∈ DocComment.findAll source, ∃ e, d.read c.text = .error e

def Dialect.finds (d : Dialect) (c : DocComment) : Bool :=
  match d.read c.text with
  | .ok findings => !findings.isEmpty
  | .error _ => false

namespace Extraction

variable {d : Dialect}

def ofSource (d : Dialect) (source : String) : List Extraction :=
  (DocComment.findAll source).filterMap (ofComment? d)

structure Describes (d : Dialect) (c : DocComment) (e : Extraction) : Prop where
  read_eq : d.read c.text = .ok e.findings
  line_eq : e.line = c.line
  offset_eq : e.offset = c.span.start

theorem ofComment?_cases (d : Dialect) (c : DocComment) :
    (∃ e, ofComment? d c = some e ∧ d.finds c = true ∧ Describes d c e) ∨
      ofComment? d c = none ∧ d.finds c = false := by
  rw [ofComment?, Dialect.finds]
  cases h : d.read c.text with
  | error e => exact .inr ⟨rfl, rfl⟩
  | ok findings =>
    cases empty : findings.isEmpty with
    | true => exact .inr (by simp [empty])
    | false => exact .inl ⟨_, by simp [empty]; rfl, by simp [empty], h, rfl, rfl⟩

theorem forall₂_describes (d : Dialect) (cs : List DocComment) :
    List.Forall₂ (Describes d) (cs.filter d.finds) (cs.filterMap (ofComment? d)) := by
  induction cs with
  | nil => exact .nil
  | cons c cs ih =>
    rcases ofComment?_cases d c with ⟨e, entry, found, describes⟩ | ⟨entry, found⟩
    · rw [List.filter_cons_of_pos found, List.filterMap_cons_some entry]
      exact .cons describes ih
    · rwa [List.filter_cons_of_neg (by simp [found]), List.filterMap_cons_none entry]

def moved (e : Extraction) (bytes lines : Nat) : Extraction :=
  { e with line := e.line + lines, offset := e.offset + bytes }

theorem ofComment?_moved (d : Dialect) (c : DocComment) (bytes lines : Nat) :
    ofComment? d (c.moved bytes lines) = (ofComment? d c).map (·.moved bytes lines) := by
  have text : (c.moved bytes lines).text = c.text := rfl
  rw [ofComment?, ofComment?, text]
  cases d.read c.text with
  | error e => rfl
  | ok findings =>
    cases empty : findings.isEmpty with
    | true => simp [empty]
    | false => simp [empty, moved, DocComment.moved, Span.shift]

theorem ofSource_append {source : String} (h : DocComment.Closed source.toList) (d : Dialect)
    (more : String) :
    ofSource d (source ++ "\n" ++ more) =
      ofSource d source ++
        (ofSource d more).map (·.moved (1 + source.utf8ByteSize) (1 + source.toList.count '\n')) := by
  rw [ofSource, DocComment.findAll_append h, List.filterMap_append, List.filterMap_map, ofSource,
    ofSource, List.map_filterMap, Text.utf8ByteSize_eq_width]
  congr 2
  funext c
  exact ofComment?_moved d c _ _

theorem isEmpty_errors_iff {source : String} :
    ((DocComment.findAll source).filterMap (errorOf? d)).isEmpty ↔ ¬ d.Fails source := by
  have readable : ∀ c, errorOf? d c = none ↔ ¬ ∃ e, d.read c.text = .error e := by
    intro c
    rw [errorOf?]
    cases d.read c.text with
    | error e => simp
    | ok findings => simp
  simp only [List.isEmpty_iff, List.filterMap_eq_nil_iff, Dialect.Fails, readable, not_exists,
    not_and]

end Extraction

theorem Dialect.fails_append_iff {source : String} (h : DocComment.Closed source.toList) (d : Dialect)
    (more : String) : d.Fails (source ++ "\n" ++ more) ↔ d.Fails source ∨ d.Fails more := by
  rw [Fails, DocComment.findAll_append h]
  simp only [List.mem_append, List.mem_map, or_and_right, exists_or]
  apply or_congr_right
  constructor
  · rintro ⟨_, ⟨c, mem, rfl⟩, fails⟩
    exact ⟨c, mem, fails⟩
  · rintro ⟨c, mem, fails⟩
    exact ⟨_, ⟨c, mem, rfl⟩, fails⟩

theorem Outcome.foldl_report (file source : String) (errors : List (Nat × ReadError)) (o : Outcome) :
    (errors.foldl (fun o (base, e) => o.report file source base e) o).status = o.status ∧
      (errors.foldl (fun o (base, e) => o.report file source base e) o).output = o.output := by
  induction errors generalizing o with
  | nil => exact ⟨rfl, rfl⟩
  | cons error errors ih =>
    obtain ⟨base, e⟩ := error
    have kept : (o.report file source base e).status = o.status ∧
        (o.report file source base e).output = o.output := by
      cases e with
      | emptyVocabulary => exact ⟨rfl, rfl⟩
      | fault l body => exact ⟨rfl, rfl⟩
    rw [List.foldl_cons, (ih _).1, (ih _).2]
    exact kept

namespace Command

variable {files : Files} {r : Reading} {d : Dialect} {source : String}

theorem run_extract (loaded : load files r = .ok (d, source)) :
    run files (.extract r) = extractFrom d r source := by
  rw [run, loaded]

theorem output_extractFrom (d : Dialect) (r : Reading) (source : String) :
    (extractFrom d r source).output =
      spell r.pretty (.list ((Extraction.ofSource d source).map Extraction.toJson)) :=
  (Outcome.foldl_report ..).2

theorem status_extractFrom (d : Dialect) (r : Reading) (source : String) :
    ((extractFrom d r source).status = 1 ↔ d.Fails source) ∧
      ((extractFrom d r source).status = 0 ↔ ¬ d.Fails source) := by
  have kept : (extractFrom d r source).status =
      if ((DocComment.findAll source).filterMap (Extraction.errorOf? d)).isEmpty then 0 else 1 :=
    (Outcome.foldl_report ..).1
  rw [kept]
  by_cases fails : d.Fails source
  · rw [if_neg (by rwa [Extraction.isEmpty_errors_iff, not_not])]
    simp [fails]
  · rw [if_pos (by rwa [Extraction.isEmpty_errors_iff])]
    simp [fails]

/-- The program prints an entry for each doc comment that can be read and has markers, and its status
tells whether one could not be read. A source that is followed by another on a new line is printed
like the two alone, with the places of the second one moved. -/
theorem run_extract_distributes (files : Files) (d : Dialect) :
    (∀ (r : Reading) (source : String), load files r = .ok (d, source) →
      (run files (.extract r)).output =
        spell r.pretty (.list ((Extraction.ofSource d source).map Extraction.toJson)) ∧
      List.Forall₂ (Extraction.Describes d) ((DocComment.findAll source).filter d.finds)
        (Extraction.ofSource d source) ∧
      ((run files (.extract r)).status = 1 ↔ d.Fails source) ∧
      ((run files (.extract r)).status = 0 ↔ ¬ d.Fails source)) ∧
    ∀ (first second whole : Reading) (source more : String),
      load files first = .ok (d, source) → load files second = .ok (d, more) →
      load files whole = .ok (d, source ++ "\n" ++ more) → DocComment.Closed source.toList →
      Extraction.ofSource d (source ++ "\n" ++ more) =
        Extraction.ofSource d source ++
          (Extraction.ofSource d more).map
            (·.moved (1 + source.utf8ByteSize) (1 + source.toList.count '\n')) ∧
      ((run files (.extract whole)).status = 1 ↔
        (run files (.extract first)).status = 1 ∨ (run files (.extract second)).status = 1) := by
  constructor
  · intro r source loaded
    rw [run_extract loaded]
    exact ⟨output_extractFrom d r source, Extraction.forall₂_describes d _,
      status_extractFrom d r source⟩
  · intro first second whole source more loaded loaded' loaded'' closed
    refine ⟨Extraction.ofSource_append closed d more, ?_⟩
    rw [run_extract loaded, run_extract loaded', run_extract loaded'', (status_extractFrom ..).1,
      (status_extractFrom ..).1, (status_extractFrom ..).1]
    exact d.fails_append_iff closed more

theorem run_extract_distributes_failing :
    ∃ (files : Files) (d : Dialect) (first second whole : Reading),
      load files first = .ok (d, "/** @a */ é\n/**/") ∧
      load files second = .ok (d, "/** @a(n=) */ /** @a(n=2) */") ∧
      load files whole =
        .ok (d, "/** @a */ é\n/**/" ++ "\n" ++ "/** @a(n=) */ /** @a(n=2) */") ∧
      (run files (.extract first)).status = 0 ∧ (run files (.extract whole)).status = 1 ∧
      ((Extraction.ofSource d ("/** @a */ é\n/**/" ++ "\n" ++ "/** @a(n=) */ /** @a(n=2) */")).map
        fun e => (e.line, e.offset)) = [(1, 0), (3, 32)] ∧
      (run files (.extract whole)).output =
        "[\x7b\"line\":1,\"offset\":0," ++
          "\"annotations\":\x7b\"a\":\x7b\"name\":\"a\",\"attributes\":\x7b\x7d\x7d\x7d\x7d," ++
        "\x7b\"line\":3,\"offset\":32," ++
          "\"annotations\":\x7b\"a\":\x7b\"name\":\"a\",\"attributes\":\x7b\"n\":2\x7d\x7d\x7d\x7d]\n" := by
  let files : Files := fun path =>
    if path = "types" then
      .ok "\x7b\"types\": [\x7b\"name\": \"a\", \"attributes\": \x7b\"n\": \"int\"\x7d\x7d]\x7d"
    else if path = "first" then .ok "/** @a */ é\n/**/"
    else if path = "second" then .ok "/** @a(n=) */ /** @a(n=2) */"
    else .ok ("/** @a */ é\n/**/" ++ "\n" ++ "/** @a(n=) */ /** @a(n=2) */")
  let d : Dialect := ⟨⟨[⟨"a", [("n", .scalar .integer)]⟩], by simp⟩, ⟨2⟩⟩
  let reading (file : String) : Reading := ⟨file, "types", false, ⟨2⟩⟩
  have first : load files (reading "first") = .ok (d, "/** @a */ é\n/**/") := by cbv
  have second : load files (reading "second") = .ok (d, "/** @a(n=) */ /** @a(n=2) */") := by cbv
  have whole : load files (reading "whole") =
      .ok (d, "/** @a */ é\n/**/" ++ "\n" ++ "/** @a(n=) */ /** @a(n=2) */") := by cbv
  obtain ⟨one, two⟩ := run_extract_distributes files d
  obtain ⟨-, -, fails, succeeds⟩ := one _ _ first
  obtain ⟨printed, -⟩ := one _ _ whole
  obtain ⟨entries, status⟩ := two _ _ _ _ _ first second whole (by decide +kernel)
  refine ⟨files, d, _, _, _, first, second, whole, succeeds.2 ?_, status.2 (.inr ?_), ?_, ?_⟩
  · rw [← fails]
    decide +kernel
  · decide +kernel
  · rw [entries]
    decide +kernel
  · rw [printed, entries]
    decide +kernel

end Command
end DocMarks
