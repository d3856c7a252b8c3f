import DocMarks.Proofs.Schema.Faults
import DocMarks.Schema.Reader

/-! Which schemas load. Nothing is wrong exactly with those whose types have distinct names, refer
only to types before them and are registered once; the references between the types of such a
schema go strictly backwards in the file, so they have no cycles. -/

namespace DocMarks

inductive Shape.Mentions : Shape → MarkerType → Prop
  | marker (t : MarkerType) : Mentions (.marker t) t
  | tableOf {s : Shape} {t : MarkerType} : Mentions s t → Mentions (.tableOf s) t

def MarkerType.RefersTo (t u : MarkerType) : Prop := ∃ a ∈ t.attributes, a.2.Mentions u

namespace Schema

inductive ShapeExpr.Refers (earlier : List String) : ShapeExpr → Prop
  | scalar {n : String} : n ∈ scalarNames.map Prod.fst → Refers earlier (.name n)
  | type {n : String} : n ∈ earlier → Refers earlier (.name n)
  | list {e : ShapeExpr} : Refers earlier e → Refers earlier (.list [e])

structure WellFormed (s : Schema) : Prop where
  distinct : (s.types.map TypeDecl.name).Nodup
  earlier : ∀ (i : Nat) (d : TypeDecl), s.types[i]? = some d →
    ∀ a ∈ d.attributes, a.2.Refers ((s.types.take i).map TypeDecl.name)
  registered : ∀ ns, s.registered = some ns →
    ns.Nodup ∧ ∀ n ∈ ns, n ∈ s.types.map TypeDecl.name

variable {earlier declared taken : List String}

theorem ShapeExpr.fault?_eq_none_iff {marker key : String} {e : ShapeExpr} :
    e.fault? earlier marker key = none ↔ e.Refers earlier := by
  fun_induction ShapeExpr.fault? earlier marker key e with
  | case1 n known => simp only [true_iff]; exact known.elim .scalar .type
  | case2 n unknown =>
    rw [not_or] at unknown
    constructor
    · intro h
      cases h
    · intro h
      cases h with
      | scalar h => exact absurd h unknown.1
      | type h => exact absurd h unknown.2
  | case3 e ih =>
    rw [ih]
    constructor
    · exact .list
    · intro h
      cases h with
      | list h => exact h
  | case4 es several =>
    constructor
    · intro h
      cases h
    · intro h
      cases h with
      | list h => exact absurd rfl (several _)

theorem TypeDecl.faults_eq_nil_iff {d : TypeDecl} :
    d.faults earlier = [] ↔ d.name ∉ earlier ∧ ∀ a ∈ d.attributes, a.2.Refers earlier := by
  simp only [faults, List.append_eq_nil_iff, List.filterMap_eq_nil_iff,
    ShapeExpr.fault?_eq_none_iff, ite_eq_right_iff, List.cons_ne_nil, imp_false]

def Fresh (taken ns : List String) : Prop := (∀ n ∈ ns, n ∉ taken) ∧ ns.Nodup

theorem fresh_nil_iff {ns : List String} : Fresh [] ns ↔ ns.Nodup := by
  simp [Fresh]

theorem fresh_cons_iff {n : String} {ns : List String} :
    Fresh taken (n :: ns) ↔ n ∉ taken ∧ Fresh (taken ++ [n]) ns := by
  rw [Fresh, Fresh, List.forall_mem_cons, List.nodup_cons]
  constructor
  · rintro ⟨⟨new, others⟩, distinct⟩
    refine ⟨new, ?_, distinct.2⟩
    intro m mem
    rw [List.mem_append, List.mem_singleton, not_or]
    exact ⟨others m mem, fun same => distinct.1 (same ▸ mem)⟩
  · rintro ⟨new, others, distinct⟩
    refine ⟨⟨new, fun m mem taken => others m mem (List.mem_append_left _ taken)⟩, ?_, distinct⟩
    exact fun mem => others n mem (List.mem_append_right _ (.head _))

theorem declarationFaults_eq_nil_iff {ds : List TypeDecl} :
    declarationFaults earlier ds = [] ↔
      Fresh earlier (ds.map TypeDecl.name) ∧
        ∀ (i : Nat) (d : TypeDecl), ds[i]? = some d →
          ∀ a ∈ d.attributes, a.2.Refers (earlier ++ (ds.take i).map TypeDecl.name) := by
  induction ds generalizing earlier with
  | nil => simp [declarationFaults, Fresh]
  | cons d ds ih =>
    rw [declarationFaults, List.append_eq_nil_iff, TypeDecl.faults_eq_nil_iff, ih, List.map_cons,
      fresh_cons_iff]
    constructor
    · rintro ⟨⟨new, first⟩, fresh, rest⟩
      refine ⟨⟨new, fresh⟩, ?_⟩
      intro i e he
      cases i with
      | zero =>
        cases he
        simpa using first
      | succ i =>
        have shapes := rest i e he
        rwa [List.append_assoc] at shapes
    · rintro ⟨⟨new, fresh⟩, shapes⟩
      refine ⟨⟨new, by simpa using shapes 0 d rfl⟩, fresh, ?_⟩
      intro i e he
      rw [List.append_assoc]
      exact shapes (i + 1) e he

theorem registrationFaults_eq_nil_iff {ns : List String} :
    registrationFaults declared taken ns = [] ↔ Fresh taken ns ∧ ∀ n ∈ ns, n ∈ declared := by
  induction ns generalizing taken with
  | nil => simp [registrationFaults, Fresh]
  | cons n ns ih =>
    rw [registrationFaults, List.append_eq_nil_iff, ih, fresh_cons_iff, List.forall_mem_cons]
    by_cases known : n ∈ declared
    · by_cases used : n ∈ taken
      · simp [known, used]
      · simp [known, used]
    · simp [known]

theorem faults_eq_nil_iff {s : Schema} : s.faults = [] ↔ s.WellFormed := by
  rw [faults, List.append_eq_nil_iff, declarationFaults_eq_nil_iff, registrationFaults_eq_nil_iff,
    fresh_nil_iff, fresh_nil_iff]
  constructor
  · rintro ⟨⟨distinct, shapes⟩, registered⟩
    refine ⟨distinct, shapes, ?_⟩
    intro ns h
    rwa [h] at registered
  · rintro ⟨distinct, shapes, registered⟩
    refine ⟨⟨distinct, shapes⟩, ?_⟩
    cases h : s.registered with
    | none => simp
    | some ns => exact registered ns h

theorem ShapeExpr.Means.mem_of_mentions {known : List MarkerType} {e : ShapeExpr} {s : Shape}
    {u : MarkerType} (h : e.Means known s) (mentions : s.Mentions u) : u ∈ known := by
  induction h with
  | scalar _ => cases mentions
  | marker _ mem =>
    cases mentions with
    | marker => exact mem
  | table _ ih =>
    cases mentions with
    | tableOf mentions => exact ih mentions

theorem TypeDecl.Means.exists_of_mem {known : List MarkerType} {d : TypeDecl} {t : MarkerType}
    (h : d.Means known t) {a : String × Shape} (mem : a ∈ t.attributes) :
    ∃ b ∈ d.attributes, b.2.Means known a.2 := by
  obtain ⟨e, last, means⟩ := h.shapes a mem
  exact ⟨(a.1, e), Entries.mem_of_lookup_reverse last, means⟩

theorem TypeDecl.Means.mem_of_refersTo {known : List MarkerType} {d : TypeDecl}
    {t u : MarkerType} (h : d.Means known t) (refers : t.RefersTo u) : u ∈ known := by
  obtain ⟨a, mem, mentions⟩ := refers
  obtain ⟨b, -, means⟩ := h.exists_of_mem mem
  exact means.mem_of_mentions mentions

theorem Declared.exists_lt {ds : List TypeDecl} {ts : List MarkerType} (h : Declared [] ds ts)
    {i : Nat} {t u : MarkerType} (ht : ts[i]? = some t) (refers : t.RefersTo u) :
    ∃ j < i, ts[j]? = some u := by
  obtain ⟨hi, -⟩ := List.getElem?_eq_some_iff.1 ht
  have hd := List.getElem?_eq_getElem (h.length_eq ▸ hi)
  have mem := (h.means i _ t hd ht).mem_of_refersTo refers
  obtain ⟨j, hj⟩ := List.mem_iff_getElem?.1 mem
  rw [List.nil_append, List.getElem?_take] at hj
  split at hj
  case isTrue before => exact ⟨j, before, hj⟩
  case isFalse => cases hj

open Relation (ReflTransGen TransGen)

theorem Declared.exists_of_reachable {ds : List TypeDecl} {ts : List MarkerType}
    (h : Declared [] ds ts) {t u : MarkerType} (mem : t ∈ ts)
    (reach : ReflTransGen MarkerType.RefersTo t u) : ∃ i : Nat, ts[i]? = some u := by
  induction reach with
  | refl => exact List.mem_iff_getElem?.1 mem
  | tail _ refers ih =>
    obtain ⟨i, hi⟩ := ih
    obtain ⟨j, -, hj⟩ := h.exists_lt hi refers
    exact ⟨j, hj⟩

theorem Declared.exists_lt_of_transGen {ds : List TypeDecl} {ts : List MarkerType}
    (h : Declared [] ds ts) {i : Nat} {t u : MarkerType} (ht : ts[i]? = some t)
    (reach : TransGen MarkerType.RefersTo t u) : ∃ j < i, ts[j]? = some u := by
  induction reach with
  | single refers => exact h.exists_lt ht refers
  | tail _ refers ih =>
    obtain ⟨j, lt, hj⟩ := ih
    obtain ⟨k, lt', hk⟩ := h.exists_lt hj refers
    exact ⟨k, Nat.lt_trans lt' lt, hk⟩

/-- No chain of references comes back to the name that it started from. -/
theorem Declared.name_ne_of_transGen {ds : List TypeDecl} {ts : List MarkerType}
    (h : Declared [] ds ts) (distinct : (ds.map TypeDecl.name).Nodup) {t u : MarkerType}
    (mem : t ∈ ts) (reach : TransGen MarkerType.RefersTo t u) : u.name ≠ t.name := by
  obtain ⟨i, hi⟩ := List.mem_iff_getElem?.1 mem
  obtain ⟨j, lt, hj⟩ := h.exists_lt_of_transGen hi reach
  rw [← h.map_name_eq] at distinct
  obtain ⟨bound, -⟩ := List.getElem?_eq_some_iff.1 hj
  intro same
  have index : j = i := by
    apply (List.getElem?_inj (by rwa [List.length_map]) distinct).1
    rw [List.getElem?_map, List.getElem?_map, hi, hj, Option.map_some, Option.map_some, same]
  omega

structure Provides (s : Schema) (v : Vocabulary) (ts : List MarkerType) : Prop where
  declared : Declared [] s.types ts
  file : ts.map MarkerType.name = s.types.map TypeDecl.name
  names : v.names = s.registered.getD (s.types.map TypeDecl.name)
  registered : ∀ t ∈ v.types, t ∈ ts
  /-- Every type in reach of a registered one is declared, and all that it refers to are declared
  before it. -/
  earlier : ∀ t ∈ v.types, ∀ u, ReflTransGen MarkerType.RefersTo t u →
    ∃ i : Nat, ts[i]? = some u ∧ ∀ w, u.RefersTo w → ∃ j < i, ts[j]? = some w
  acyclic : ∀ t ∈ ts, ∀ u, TransGen MarkerType.RefersTo t u → u.name ≠ t.name

/-- A schema loads exactly if it is well formed, with its types declared one in the light of the
others before it; otherwise the first of its faults is reported. -/
theorem dialect_eq_ok_iff_wellFormed (s : Schema) (limits : Limits) :
    ((∃ d, s.dialect limits = .ok d) ↔ s.WellFormed) ∧
    (∀ d, s.dialect limits = .ok d →
      d.limits = limits ∧ ∃ ts, s.Provides d.vocabulary ts) ∧
    (∀ f, s.dialect limits = .error f ↔ s.faults.head? = some f) ∧
    ∀ text, ofText? text = some s → load text limits = s.dialect limits := by
  have reports := s.dialect_reports limits
  refine ⟨reports.exists_ok_iff.trans faults_eq_nil_iff, ?_, reports.eq_error_iff, ?_⟩
  case refine_2 =>
    intro text h
    rw [load, h]
  intro d h
  have wellFormed := faults_eq_nil_iff.1 (reports.exists_ok_iff.1 ⟨d, h⟩)
  rw [h] at reports
  obtain ⟨same, names, ts, declared, registered⟩ := reports.of_ok
  refine ⟨same, ts, declared, declared.map_name_eq, names, registered, ?_, ?_⟩
  · intro t mem u reach
    obtain ⟨i, hi⟩ := declared.exists_of_reachable (registered t mem) reach
    exact ⟨i, hi, fun w refers => declared.exists_lt hi refers⟩
  · intro t mem u reach
    exact declared.name_ne_of_transGen wellFormed.distinct mem reach

theorem dialect_eq_ok_iff_wellFormed_nested :
    ∃ (text : String) (s : Schema) (d : Dialect) (ts : List MarkerType),
      ofText? text = some s ∧ s.types.map TypeDecl.name = ["int", "a", "b"] ∧
      load text ⟨8⟩ = .ok d ∧ d.vocabulary.names = ["b"] ∧ d.limits = ⟨8⟩ ∧
      s.Provides d.vocabulary ts := by
  let s : Schema := ⟨[⟨"int", []⟩, ⟨"a", [("x", .name "int")]⟩,
    ⟨"b", [("y", .list [.list [.name "a"]])]⟩], some ["b"]⟩
  have decoded : ofText? ("\x7b\"types\": [\x7b\"name\": \"int\"\x7d, " ++
      "\x7b\"name\": \"a\", \"attributes\": \x7b\"x\": \"int\"\x7d\x7d, " ++
      "\x7b\"name\": \"b\", \"attributes\": \x7b\"y\": [[\"a\"]]\x7d\x7d], " ++
      "\"register\": [\"b\"]\x7d") = some s := by cbv
  obtain ⟨-, provides, -, loads⟩ := dialect_eq_ok_iff_wellFormed s ⟨8⟩
  obtain ⟨d, h, names⟩ : ∃ d, s.dialect ⟨8⟩ = .ok d ∧ d.vocabulary.names = ["b"] :=
    ⟨_, rfl, rfl⟩
  obtain ⟨limits, ts, provided⟩ := provides d h
  exact ⟨_, s, d, ts, decoded, rfl, (loads _ decoded).trans h, names, limits, provided⟩

end Schema
end DocMarks
