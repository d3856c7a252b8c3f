import Mathlib
import DocMarks.Declaration
import DocMarks.Proofs.Vocabulary

namespace DocMarks.Dialects

variable {ds es : Dialects} {kind : Declaration.Kind} {ts : List MarkerType}
variable {steps : List (Declaration.Kind × List MarkerType)}

theorem ext_dialect (h : ∀ kind, ds.dialect kind = es.dialect kind) : ds = es := by
  cases ds
  cases es
  simpa [dialect] using ⟨h .classes, h .methods, h .properties⟩

theorem extend_eq_ok_iff :
    ds.extend kind ts = .ok es ↔
      (ds.dialect kind).registerAll ts = .ok (es.dialect kind) ∧
        ∀ other, other ≠ kind → es.dialect other = ds.dialect other := by
  rw [extend]
  cases h : (ds.dialect kind).registerAll ts with
  | error d => simp [Except.map]
  | ok d =>
    rw [Except.map, Except.ok.injEq, Except.ok.injEq]
    constructor
    · rintro rfl
      exact ⟨by simp, fun other ne => dialect_setDialect_of_ne ds d ne⟩
    · rintro ⟨rfl, others⟩
      apply ext_dialect
      intro other
      by_cases same : other = kind
      · rw [same, dialect_setDialect]
      · rw [dialect_setDialect_of_ne ds _ same, others other same]

def extendAll (ds : Dialects) :
    List (Declaration.Kind × List MarkerType) → Except Vocabulary.Duplicate Dialects
  | [] => .ok ds
  | (kind, ts) :: steps => do
    let ds ← ds.extend kind ts
    ds.extendAll steps

def stepsFor (kind : Declaration.Kind) (steps : List (Declaration.Kind × List MarkerType)) :
    List (Declaration.Kind × List MarkerType) :=
  steps.filter (·.1 = kind)

def typesFor (kind : Declaration.Kind) (steps : List (Declaration.Kind × List MarkerType)) :
    List MarkerType :=
  (stepsFor kind steps).flatMap Prod.snd

theorem typesFor_cons (kind other : Declaration.Kind) (ts : List MarkerType)
    (steps : List (Declaration.Kind × List MarkerType)) :
    typesFor kind ((other, ts) :: steps) =
      if other = kind then ts ++ typesFor kind steps else typesFor kind steps := by
  by_cases same : other = kind <;> simp [typesFor, stepsFor, same]

theorem typesFor_stepsFor (kind : Declaration.Kind)
    (steps : List (Declaration.Kind × List MarkerType)) :
    typesFor kind (stepsFor kind steps) = typesFor kind steps := by
  simp [typesFor, stepsFor]

theorem typesFor_stepsFor_of_ne {other : Declaration.Kind} (ne : other ≠ kind)
    (steps : List (Declaration.Kind × List MarkerType)) :
    typesFor other (stepsFor kind steps) = [] := by
  have none : stepsFor other (stepsFor kind steps) = [] := by
    simp only [stepsFor, List.filter_eq_nil_iff, List.mem_filter, decide_eq_true_eq]
    rintro step ⟨-, rfl⟩
    exact Ne.symm ne
  rw [typesFor, none, List.flatMap_nil]

theorem extendAll_cons_eq_ok_iff :
    ds.extendAll ((kind, ts) :: steps) = .ok es ↔
      ∃ mid, ds.extend kind ts = .ok mid ∧ mid.extendAll steps = .ok es := by
  rw [extendAll]
  cases ds.extend kind ts with
  | error d => simp [bind, Except.bind]
  | ok mid => simp [bind, Except.bind]

/-- All steps succeed exactly if each kind can register its own types one after another. -/
theorem extendAll_eq_ok_iff :
    ds.extendAll steps = .ok es ↔
      ∀ kind, (ds.dialect kind).registerAll (typesFor kind steps) = .ok (es.dialect kind) := by
  induction steps generalizing ds with
  | nil =>
    have none : ∀ kind, (ds.dialect kind).registerAll (typesFor kind []) = .ok (ds.dialect kind) :=
      fun _ => rfl
    simp only [extendAll, none, Except.ok.injEq]
    constructor
    · rintro rfl kind
      rfl
    · exact ext_dialect
  | cons step steps ih =>
    obtain ⟨kind, ts⟩ := step
    rw [extendAll_cons_eq_ok_iff]
    constructor
    · rintro ⟨mid, step, rest⟩ any
      obtain ⟨registered, others⟩ := extend_eq_ok_iff.1 step
      have rest := ih.1 rest any
      rw [typesFor_cons]
      split
      case isTrue same =>
        subst same
        exact Dialect.registerAll_append_eq_ok_iff.2 ⟨_, registered, rest⟩
      case isFalse other => rwa [others any (Ne.symm other)] at rest
    · intro all
      have own := all kind
      rw [typesFor_cons, if_pos rfl] at own
      obtain ⟨d, registered, rest⟩ := Dialect.registerAll_append_eq_ok_iff.1 own
      refine ⟨ds.setDialect kind d, ?_, ih.2 ?_⟩
      · rw [extend, registered]
        rfl
      · intro any
        by_cases same : any = kind
        · rwa [same, dialect_setDialect]
        · have other := all any
          rw [typesFor_cons, if_neg (Ne.symm same)] at other
          rwa [dialect_setDialect_of_ne ds d same]

theorem extendAll_stepsFor (h : ds.extendAll steps = .ok es) (kind : Declaration.Kind) :
    ds.extendAll (stepsFor kind steps) = .ok (ds.setDialect kind (es.dialect kind)) := by
  rw [extendAll_eq_ok_iff] at h ⊢
  intro any
  by_cases same : any = kind
  · rw [same, dialect_setDialect, typesFor_stepsFor, h]
  · rw [dialect_setDialect_of_ne ds _ same, typesFor_stepsFor_of_ne same]
    rfl

theorem extendAll_congr {steps' : List (Declaration.Kind × List MarkerType)}
    (same : ∀ kind, stepsFor kind steps' = stepsFor kind steps) (h : ds.extendAll steps = .ok es) :
    ds.extendAll steps' = .ok es := by
  rw [extendAll_eq_ok_iff] at h ⊢
  intro kind
  rw [typesFor, same]
  exact h kind

theorem extend_eq_error_iff {d : Vocabulary.Duplicate} :
    ds.extend kind ts = .error d ↔ (ds.dialect kind).vocabulary.registerAll ts = .error d := by
  rw [extend, Dialect.registerAll]
  cases (ds.dialect kind).vocabulary.registerAll ts with
  | error d' => simp [Except.map]
  | ok v => simp [Except.map]

theorem exists_extend_eq_ok_iff :
    (∃ es, ds.extend kind ts = .ok es) ↔
      (ts.map MarkerType.name).Nodup ∧ ∀ t ∈ ts, t.name ∉ (ds.dialect kind).vocabulary.names := by
  rw [← Vocabulary.exists_registerAll_iff, extend, Dialect.registerAll]
  cases (ds.dialect kind).vocabulary.registerAll ts with
  | error d => simp [Except.map]
  | ok v => simp [Except.map]

end DocMarks.Dialects

namespace DocMarks

/-- A step succeeds exactly if the names of its types are distinct and new to its kind; then it adds
the types to this kind and changes nothing else, and otherwise it names the first type that clashes.
So after steps that succeed, each kind has the dialect that its own steps give. -/
theorem Dialects.extend_isolated (base : Dialect) :
    (∀ (ds : Dialects) (kind : Declaration.Kind) (ts : List MarkerType),
      ((∃ es, ds.extend kind ts = .ok es) ↔
        (ts.map MarkerType.name).Nodup ∧
          ∀ t ∈ ts, t.name ∉ (ds.dialect kind).vocabulary.names) ∧
      (∀ es, ds.extend kind ts = .ok es →
        (es.dialect kind).vocabulary.types = (ds.dialect kind).vocabulary.types ++ ts ∧
        (∀ t ∈ (es.dialect kind).vocabulary.types,
          (es.dialect kind).vocabulary.lookup? t.name = some t) ∧
        (∀ other, other ≠ kind → es.dialect other = ds.dialect other) ∧
        ∀ any, (es.dialect any).limits = (ds.dialect any).limits) ∧
      ∀ d, ds.extend kind ts = .error d ↔
        ∃ front t back, ts = front ++ t :: back ∧
          ((ds.dialect kind).vocabulary.names ++ front.map MarkerType.name).Nodup ∧
          t.name ∈ (ds.dialect kind).vocabulary.names ++ front.map MarkerType.name ∧
          d = ⟨t.name⟩) ∧
    ∀ (steps : List (Declaration.Kind × List MarkerType)) (ds : Dialects),
      (uniform base).extendAll steps = .ok ds →
      (∀ kind, ∃ only, (uniform base).extendAll (stepsFor kind steps) = .ok only ∧
        only.dialect kind = ds.dialect kind ∧
        ∀ comment, only.read ⟨kind, comment⟩ = ds.read ⟨kind, comment⟩) ∧
      ∀ steps', (∀ kind, stepsFor kind steps' = stepsFor kind steps) →
        (uniform base).extendAll steps' = .ok ds := by
  refine ⟨fun ds kind ts => ⟨exists_extend_eq_ok_iff, ?_, ?_⟩, ?_⟩
  · intro es h
    obtain ⟨registered, others⟩ := extend_eq_ok_iff.1 h
    obtain ⟨registered, limits⟩ := Dialect.registerAll_eq_ok_iff.1 registered
    refine ⟨(Vocabulary.registerAll_eq_ok_iff.1 registered).2, ?_, others, ?_⟩
    · intro t mem
      exact (Vocabulary.lookup?_eq_some_iff ..).2 ⟨mem, rfl⟩
    · intro any
      by_cases same : any = kind
      · rw [same, limits]
      · rw [others any same]
  · intro d
    rw [extend_eq_error_iff, Vocabulary.registerAll_eq_error_iff]
  · intro steps ds h
    refine ⟨?_, fun steps' same => extendAll_congr same h⟩
    intro kind
    have own := dialect_setDialect (uniform base) kind (ds.dialect kind)
    refine ⟨_, extendAll_stepsFor h kind, own, ?_⟩
    intro comment
    rw [read, read, own]

theorem Dialects.extend_isolated_interleaved :
    ∃ (base : Dialect) (ds : Dialects),
      (uniform base).extendAll
        [(.classes, [⟨"a", []⟩]), (.methods, [⟨"a", []⟩, ⟨"b", []⟩]), (.classes, [⟨"c", []⟩])] =
          .ok ds ∧
      (ds.dialect .classes).vocabulary.names = ["r", "a", "c"] ∧
      (ds.dialect .properties).vocabulary.names = ["r"] ∧
      (uniform base).extendAll
        [(.methods, [⟨"a", []⟩, ⟨"b", []⟩]), (.classes, [⟨"a", []⟩]), (.classes, [⟨"c", []⟩])] =
          .ok ds ∧
      (∃ es, ds.extend .properties [⟨"b", []⟩, ⟨"a", []⟩] = .ok es ∧
        es.dialect .classes = ds.dialect .classes) ∧
      ds.extend .methods [⟨"d", []⟩, ⟨"b", []⟩, ⟨"r", []⟩] = .error ⟨"b"⟩ := by
  let base : Dialect := ⟨⟨[⟨"r", []⟩], by simp⟩, ⟨2⟩⟩
  obtain ⟨step, run⟩ := extend_isolated base
  obtain ⟨ds, h⟩ : ∃ ds, (uniform base).extendAll
      [(.classes, [⟨"a", []⟩]), (.methods, [⟨"a", []⟩, ⟨"b", []⟩]), (.classes, [⟨"c", []⟩])] =
        .ok ds := ⟨_, rfl⟩
  have same := (run _ ds h).2
    [(.methods, [⟨"a", []⟩, ⟨"b", []⟩]), (.classes, [⟨"a", []⟩]), (.classes, [⟨"c", []⟩])]
    (fun kind => by cases kind <;> rfl)
  obtain ⟨es, extended⟩ := (step ds .properties [⟨"b", []⟩, ⟨"a", []⟩]).1.2
    (by cases h; decide)
  have others := ((step ds .properties _).2.1 es extended).2.2.1
  refine ⟨base, ds, h, by cases h; rfl, by cases h; rfl, same,
    ⟨es, extended, others .classes (by decide)⟩, ?_⟩
  refine ((step ds .methods _).2.2 ⟨"b"⟩).2 ⟨[⟨"d", []⟩], ⟨"b", []⟩, [⟨"r", []⟩], rfl, ?_, ?_, rfl⟩
  · cases h
    decide
  · cases h
    decide

end DocMarks
