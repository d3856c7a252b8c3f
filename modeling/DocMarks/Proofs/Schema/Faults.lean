import DocMarks.Proofs.Entries
import DocMarks.Proofs.Vocabulary
import DocMarks.Schema.Basic

namespace DocMarks.Schema

def scalarNames : List (String × ScalarKind) :=
  [("string", .string), ("integer", .integer), ("int", .integer), ("float", .float),
    ("bool", .bool), ("boolean", .bool), ("mixed", .mixed)]

theorem ofName?_eq_some_iff {n : String} {kind : ScalarKind} :
    ScalarKind.ofName? n = some kind ↔ (n, kind) ∈ scalarNames := by
  constructor
  · intro h
    unfold ScalarKind.ofName? at h
    split at h <;> cases h <;> simp [scalarNames]
  · intro h
    simp only [scalarNames, List.mem_cons, Prod.mk.injEq, List.not_mem_nil, or_false] at h
    rcases h with ⟨rfl, rfl⟩ | ⟨rfl, rfl⟩ | ⟨rfl, rfl⟩ | ⟨rfl, rfl⟩ | ⟨rfl, rfl⟩ | ⟨rfl, rfl⟩ |
      ⟨rfl, rfl⟩ <;> rfl

theorem ofName?_eq_none_iff {n : String} :
    ScalarKind.ofName? n = none ↔ n ∉ scalarNames.map Prod.fst := by
  rw [Option.eq_none_iff_forall_ne_some]
  simp only [ne_eq, ofName?_eq_some_iff, List.mem_map, Prod.exists, exists_and_right, exists_eq_right,
    not_exists]

def ShapeExpr.fault? (earlier : List String) (marker key : String) : ShapeExpr → Option Fault
  | .name n =>
    if n ∈ scalarNames.map Prod.fst ∨ n ∈ earlier then none
    else some (.unknownType marker key n)
  | .list [e] => e.fault? earlier marker key
  | .list es => some (.arity marker key es.length)

def TypeDecl.faults (earlier : List String) (d : TypeDecl) : List Fault :=
  (if d.name ∈ earlier then [.duplicate ⟨d.name⟩] else []) ++
    d.attributes.filterMap fun (key, e) => e.fault? earlier d.name key

def declarationFaults (earlier : List String) : List TypeDecl → List Fault
  | [] => []
  | d :: ds => d.faults earlier ++ declarationFaults (earlier ++ [d.name]) ds

def registrationFaults (declared taken : List String) : List String → List Fault
  | [] => []
  | n :: ns =>
    (if n ∉ declared then [.unregistrable n] else if n ∈ taken then [.duplicate ⟨n⟩] else []) ++
      registrationFaults declared (taken ++ [n]) ns

def faults (s : Schema) : List Fault :=
  declarationFaults [] s.types ++
    registrationFaults (s.types.map TypeDecl.name) [] (s.registered.getD [])

/-- A scalar by its name, a type by its name if no scalar has it, and tables of either. -/
inductive ShapeExpr.Means (known : List MarkerType) : ShapeExpr → Shape → Prop
  | scalar {n : String} {kind : ScalarKind} : (n, kind) ∈ scalarNames →
      Means known (.name n) (.scalar kind)
  | marker {t : MarkerType} : t.name ∉ scalarNames.map Prod.fst → t ∈ known →
      Means known (.name t.name) (.marker t)
  | table {e : ShapeExpr} {s : Shape} : Means known e s → Means known (.list [e]) (.tableOf s)

/-- The type has the attributes of the declaration in its order, each with the shape that is meant
where it stands last. -/
structure TypeDecl.Means (known : List MarkerType) (d : TypeDecl) (t : MarkerType) : Prop where
  name_eq : t.name = d.name
  distinct : (Entries.keys t.attributes).Nodup
  keys_eq : Entries.keys t.attributes = (Entries.keys d.attributes).eraseDups
  shapes : ∀ a ∈ t.attributes, ∃ e, d.attributes.reverse.lookup a.1 = some e ∧ e.Means known a.2

structure Declared (known : List MarkerType) (ds : List TypeDecl) (ts : List MarkerType) :
    Prop where
  length_eq : ts.length = ds.length
  means : ∀ (i : Nat) (d : TypeDecl) (t : MarkerType), ds[i]? = some d → ts[i]? = some t →
    d.Means (known ++ ts.take i) t

inductive Reports {α : Type} (P : α → Prop) : List Fault → Except Fault α → Prop
  | ok {x : α} : P x → Reports P [] (.ok x)
  | error {f : Fault} {fs : List Fault} : Reports P (f :: fs) (.error f)

namespace Reports

variable {α β : Type} {P : α → Prop} {Q : β → Prop} {fs gs : List Fault} {x : Except Fault α}

theorem bind {g : α → Except Fault β} (first : Reports P fs x)
    (rest : ∀ a, P a → Reports Q gs (g a)) : Reports Q (fs ++ gs) (x >>= g) := by
  cases first with
  | ok h => exact rest _ h
  | error => exact .error

theorem map {g : α → β} (h : Reports P fs x) (image : ∀ a, P a → Q (g a)) :
    Reports Q fs (x.map g) := by
  cases h with
  | ok h => exact .ok (image _ h)
  | error => exact .error

theorem imp {Q : α → Prop} (h : Reports P fs x) (imp : ∀ a, P a → Q a) : Reports Q fs x := by
  cases h with
  | ok h => exact .ok (imp _ h)
  | error => exact .error

theorem of_ok {a : α} (h : Reports P fs (.ok a)) : P a := by
  cases h with
  | ok h => exact h

theorem exists_ok_iff (h : Reports P fs x) : (∃ a, x = .ok a) ↔ fs = [] := by
  cases h with
  | ok _ => simp
  | error => simp

theorem eq_error_iff (h : Reports P fs x) (f : Fault) : x = .error f ↔ fs.head? = some f := by
  cases h with
  | ok _ => simp
  | error => simp

end Reports

variable {known : Vocabulary}

theorem ShapeExpr.resolve_reports (known : Vocabulary) (marker key : String) (e : ShapeExpr) :
    Reports (e.Means known.types) (e.fault? known.names marker key).toList
      (e.resolve known marker key) := by
  induction e using ShapeExpr.resolve.induct known with
  | case1 n kind scalar =>
    have listed := ofName?_eq_some_iff.1 scalar
    rw [fault?, if_pos (.inl (List.mem_map_of_mem listed))]
    simp only [resolve, scalar]
    exact .ok (.scalar listed)
  | case2 n other t found =>
    obtain ⟨mem, rfl⟩ := (known.lookup?_eq_some_iff n t).1 found
    have declared : t.name ∈ known.names := List.mem_map_of_mem mem
    rw [fault?, if_pos (.inr declared)]
    simp only [resolve, other, found]
    exact .ok (.marker (ofName?_eq_none_iff.1 other) mem)
  | case3 n other missing =>
    have undeclared := Vocabulary.lookup?_eq_none_iff.1 missing
    rw [fault?, if_neg (not_or_intro (ofName?_eq_none_iff.1 other) undeclared)]
    simp only [resolve, other, missing]
    exact .error
  | case4 e ih =>
    rw [resolve, fault?]
    exact ih.map fun _ => .table
  | case5 es several =>
    rw [resolve, fault?]
    · exact .error
    · exact several
    · exact several

theorem exists_lookup_of_forall₂ {β γ : Type} {R : β → γ → Prop} {xs : List (String × β)}
    {ys : List (String × γ)} {k : String} {y : γ}
    (h : List.Forall₂ (fun a b => a.1 = b.1 ∧ R a.2 b.2) xs ys) (found : ys.lookup k = some y) :
    ∃ x, xs.lookup k = some x ∧ R x y := by
  induction h with
  | nil => cases found
  | @cons a b xs ys both _ ih =>
    obtain ⟨key, x⟩ := a
    obtain ⟨_, y⟩ := b
    obtain ⟨rfl, related⟩ := both
    by_cases same : k = key
    · rw [same, List.lookup_cons_self] at found ⊢
      cases found
      exact ⟨x, rfl, related⟩
    · rw [List.lookup_cons, beq_eq_false_iff_ne.2 same] at found ⊢
      exact ih found

theorem TypeDecl.means_declare {types : List MarkerType} {d : TypeDecl}
    {shapes : List (String × Shape)}
    (h : List.Forall₂ (fun a b => a.1 = b.1 ∧ a.2.Means types b.2) d.attributes shapes) :
    d.Means types (.declare d.name shapes) where
  name_eq := rfl
  distinct := Entries.nodup_keys_ofList shapes
  keys_eq := by
    have same : List.Forall₂ (fun a b => a.1 = b.1) d.attributes shapes := h.imp fun _ _ h => h.1
    have keys : Entries.keys d.attributes = Entries.keys shapes := by
      rw [Entries.keys, Entries.keys, ← List.forall₂_eq_eq_eq, List.forall₂_map_left_iff,
        List.forall₂_map_right_iff]
      exact same
    rw [keys]
    exact Entries.keys_ofList shapes
  shapes a mem := by
    have last := Entries.get?_of_mem (Entries.nodup_keys_ofList shapes) mem
    rw [Entries.get?_ofList] at last
    exact exists_lookup_of_forall₂ (List.forall₂_reverse_iff.2 h) last

theorem resolveAttributes_reports (marker : String) (attributes : List (String × ShapeExpr)) :
    Reports
      (fun shapes => List.Forall₂ (fun a b => a.1 = b.1 ∧ a.2.Means known.types b.2)
        attributes shapes)
      (attributes.filterMap fun (key, e) => e.fault? known.names marker key)
      (resolveAttributes known marker attributes) := by
  induction attributes with
  | nil => exact .ok .nil
  | cons a rest ih =>
    obtain ⟨key, e⟩ := a
    have split : ((key, e) :: rest).filterMap (fun (key, e) => e.fault? known.names marker key) =
        (e.fault? known.names marker key).toList ++
          rest.filterMap fun (key, e) => e.fault? known.names marker key := by
      cases h : e.fault? known.names marker key <;> simp [h]
    rw [split]
    apply (e.resolve_reports known marker key).bind
    intro s means
    exact ih.map fun shapes all => .cons ⟨rfl, means⟩ all

theorem register_reports (v : Vocabulary) (t : MarkerType) :
    Reports (fun w => w.types = v.types ++ [t])
      (if t.name ∈ v.names then [.duplicate ⟨t.name⟩] else [])
      ((v.register t).mapError .duplicate) := by
  cases h : v.register t with
  | error d =>
    obtain ⟨taken, rfl⟩ := Vocabulary.register_eq_error_iff.1 h
    rw [if_pos taken]
    exact .error
  | ok w =>
    obtain ⟨new, types⟩ := (Vocabulary.register_eq_ok_iff ..).1 h
    rw [if_neg new]
    exact .ok types

theorem TypeDecl.declare_reports (d : TypeDecl) :
    Reports (fun w => ∃ t, d.Means known.types t ∧ w.types = known.types ++ [t])
      (d.faults known.names) (d.declare known) := by
  rw [TypeDecl.declare, TypeDecl.faults]
  by_cases taken : d.name ∈ known.names
  · simp only [Vocabulary.contains_iff.2 taken, taken, if_true]
    exact .error
  · simp only [Vocabulary.contains_eq_false_iff.2 taken, taken, if_false, List.nil_append,
      Bool.false_eq_true]
    rw [← List.append_nil (List.filterMap _ _)]
    apply (resolveAttributes_reports d.name d.attributes).bind
    intro shapes means
    have added := register_reports known (.declare d.name shapes)
    rw [if_neg (by exact taken)] at added
    exact added.imp fun w types => ⟨_, means_declare means, types⟩

theorem Declared.cons {types : List MarkerType} {d : TypeDecl} {ds : List TypeDecl}
    {t : MarkerType} {ts : List MarkerType} (first : d.Means types t)
    (rest : Declared (types ++ [t]) ds ts) : Declared types (d :: ds) (t :: ts) where
  length_eq := congrArg Nat.succ rest.length_eq
  means i d' t' hd ht := by
    cases i with
    | zero =>
      cases hd
      cases ht
      simpa using first
    | succ i =>
      have means := rest.means i d' t' hd ht
      rwa [List.append_assoc] at means

theorem Declared.map_eq {types : List MarkerType} {ds : List TypeDecl} {ts : List MarkerType}
    (h : Declared types ds ts) {α : Type} {f : MarkerType → α} {g : TypeDecl → α}
    (same : ∀ d ∈ ds, ∀ (known : List MarkerType) (t : MarkerType), d.Means known t → f t = g d) :
    ts.map f = ds.map g := by
  apply List.ext_getElem
  · rw [List.length_map, List.length_map, h.length_eq]
  · intro i hi hi'
    rw [List.length_map] at hi hi'
    rw [List.getElem_map, List.getElem_map]
    have means := h.means i _ _ (List.getElem?_eq_getElem hi') (List.getElem?_eq_getElem hi)
    exact same _ (List.getElem_mem hi') _ _ means

theorem Declared.map_name_eq {types : List MarkerType} {ds : List TypeDecl} {ts : List MarkerType}
    (h : Declared types ds ts) : ts.map MarkerType.name = ds.map TypeDecl.name :=
  h.map_eq fun _ _ _ _ means => means.name_eq

theorem declareAll_reports (known : Vocabulary) (ds : List TypeDecl) :
    Reports (fun w => ∃ ts, Declared known.types ds ts ∧ w.types = known.types ++ ts)
      (declarationFaults known.names ds) (declareAll known ds) := by
  induction ds generalizing known with
  | nil => exact .ok ⟨[], ⟨rfl, fun _ _ _ h => nomatch h⟩, by simp⟩
  | cons d ds ih =>
    rw [declarationFaults, declareAll]
    apply d.declare_reports.bind
    rintro w ⟨t, means, types⟩
    have names : w.names = known.names ++ [d.name] := by
      simp [Vocabulary.names, types, means.name_eq]
    rw [← names]
    apply (ih w).imp
    rintro w' ⟨ts, declared, types'⟩
    rw [types] at declared types'
    exact ⟨t :: ts, .cons means declared, by simpa using types'⟩

theorem registerNames_reports (known v : Vocabulary) (ns : List String) :
    Reports (fun w => w.names = v.names ++ ns ∧ ∀ t ∈ w.types, t ∈ v.types ∨ t ∈ known.types)
      (registrationFaults known.names v.names ns) (registerNames known v ns) := by
  induction ns generalizing v with
  | nil => exact .ok ⟨by simp, fun t mem => .inl mem⟩
  | cons n ns ih =>
    rw [registrationFaults, registerNames]
    cases found : known.lookup? n with
    | none =>
      rw [if_pos (Vocabulary.lookup?_eq_none_iff.1 found)]
      exact .error
    | some t =>
      obtain ⟨declared, rfl⟩ := (known.lookup?_eq_some_iff n t).1 found
      have named : t.name ∈ known.names := List.mem_map_of_mem declared
      rw [if_neg (not_not_intro named)]
      apply (register_reports v t).bind
      intro w types
      have names : w.names = v.names ++ [t.name] := by simp [Vocabulary.names, types]
      rw [← names]
      apply (ih w).imp
      rintro w' ⟨names', members⟩
      refine ⟨by simp [names', names], ?_⟩
      intro u mem
      rcases members u mem with old | old
      · rw [types, List.mem_append, List.mem_singleton] at old
        rcases old with old | rfl
        · exact .inl old
        · exact .inr declared
      · exact .inr old

/-- Without faults, the vocabulary has the declared types that are registered. -/
theorem vocabulary_reports (s : Schema) :
    Reports
      (fun v => v.names = s.registered.getD (s.types.map TypeDecl.name) ∧
        ∃ ts, Declared [] s.types ts ∧ ∀ t ∈ v.types, t ∈ ts)
      s.faults s.vocabulary := by
  rw [faults, vocabulary]
  apply (declareAll_reports {} s.types).bind
  rintro known ⟨ts, declared, types⟩
  have types : known.types = ts := types
  have names : known.names = s.types.map TypeDecl.name := by
    rw [← declared.map_name_eq, Vocabulary.names, types]
  cases h : s.registered with
  | none => exact .ok ⟨names, ts, declared, fun t mem => types ▸ mem⟩
  | some ns =>
    rw [← names]
    apply (registerNames_reports known {} ns).imp
    rintro v ⟨names', members⟩
    refine ⟨names', ts, declared, fun t mem => ?_⟩
    exact types ▸ (members t mem).resolve_left List.not_mem_nil

theorem dialect_reports (s : Schema) (limits : Limits) :
    Reports
      (fun d => d.limits = limits ∧
        d.vocabulary.names = s.registered.getD (s.types.map TypeDecl.name) ∧
        ∃ ts, Declared [] s.types ts ∧ ∀ t ∈ d.vocabulary.types, t ∈ ts)
      s.faults (s.dialect limits) :=
  s.vocabulary_reports.map fun _ h => ⟨rfl, h⟩

end DocMarks.Schema
