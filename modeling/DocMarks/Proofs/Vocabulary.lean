import Mathlib
import DocMarks.Proofs.Grammar.Soundness
import DocMarks.Proofs.Token.Lexeme

namespace DocMarks

namespace Vocabulary

variable {v w : Vocabulary} {ts us : List MarkerType}

theorem ext_types (h : v.types = w.types) : v = w := by
  cases v
  cases w
  cases h
  rfl

theorem lookup?_eq_none_iff {name : String} : v.lookup? name = none ↔ name ∉ v.names := by
  simp [lookup?, names, List.find?_eq_none]

theorem contains_iff {name : String} : v.contains name ↔ name ∈ v.names := by
  rw [contains, Option.isSome_iff_ne_none, ne_eq, lookup?_eq_none_iff, Decidable.not_not]

theorem contains_eq_false_iff {name : String} : v.contains name = false ↔ name ∉ v.names := by
  rw [← Bool.not_eq_true, contains_iff]

theorem register_eq_error_iff {t : MarkerType} {d : Duplicate} :
    v.register t = .error d ↔ t.name ∈ v.names ∧ d = ⟨t.name⟩ := by
  rw [register]
  split
  case isTrue taken => simp [names, taken, eq_comm]
  case isFalse new => simp [names, new]

theorem registerAll_eq_ok_iff :
    v.registerAll ts = .ok w ↔
      (v.names ++ ts.map MarkerType.name).Nodup ∧ w.types = v.types ++ ts := by
  induction ts generalizing v with
  | nil =>
    simp only [registerAll, List.map_nil, List.append_nil, Except.ok.injEq]
    constructor
    · rintro rfl
      exact ⟨v.distinct, rfl⟩
    · rintro ⟨_, same⟩
      exact ext_types same.symm
  | cons t ts ih =>
    rw [registerAll]
    cases h : v.register t with
    | error d =>
      obtain ⟨taken, -⟩ := register_eq_error_iff.1 h
      constructor
      · intro h
        cases h
      · rintro ⟨distinct, _⟩
        rw [List.map_cons, List.nodup_append] at distinct
        exact absurd rfl (distinct.2.2 _ taken _ (.head _))
    | ok u =>
      obtain ⟨-, types⟩ := (register_eq_ok_iff ..).1 h
      have names : u.names = v.names ++ [t.name] := by simp [names, types]
      change u.registerAll ts = .ok w ↔ _
      rw [ih, names, types, List.append_assoc, List.append_assoc]
      rfl

theorem exists_registerAll_iff :
    (∃ w, v.registerAll ts = .ok w) ↔
      (ts.map MarkerType.name).Nodup ∧ ∀ t ∈ ts, t.name ∉ v.names := by
  simp only [registerAll_eq_ok_iff, exists_and_left, List.nodup_append]
  constructor
  · rintro ⟨⟨-, distinct, new⟩, -⟩
    exact ⟨distinct, fun t mem taken => new _ taken _ (List.mem_map_of_mem mem) rfl⟩
  · rintro ⟨distinct, new⟩
    have names : (v.names ++ ts.map MarkerType.name).Nodup := by
      refine List.nodup_append.2 ⟨v.distinct, distinct, ?_⟩
      rintro name taken _ added rfl
      obtain ⟨t, mem, rfl⟩ := List.mem_map.1 added
      exact new t mem taken
    exact ⟨List.nodup_append.1 names, ⟨v.types ++ ts, by rwa [List.map_append]⟩, rfl⟩

theorem registerAll_eq_error_iff {d : Duplicate} :
    v.registerAll ts = .error d ↔
      ∃ front t back, ts = front ++ t :: back ∧ (v.names ++ front.map MarkerType.name).Nodup ∧
        t.name ∈ v.names ++ front.map MarkerType.name ∧ d = ⟨t.name⟩ := by
  induction ts generalizing v with
  | nil => simp [registerAll]
  | cons t ts ih =>
    rw [registerAll]
    cases h : v.register t with
    | error d' =>
      obtain ⟨taken, rfl⟩ := register_eq_error_iff.1 h
      change Except.error _ = Except.error d ↔ _
      constructor
      · rintro ⟨⟩
        exact ⟨[], t, ts, rfl, by simpa [names] using v.distinct, by simpa using taken, rfl⟩
      · rintro ⟨_ | ⟨u, front⟩, u', back, split, distinct, -, rfl⟩
        · cases split
          rfl
        · cases split
          rw [List.map_cons, List.nodup_append] at distinct
          exact absurd rfl (distinct.2.2 _ taken _ (.head _))
    | ok u =>
      obtain ⟨new, types⟩ := (register_eq_ok_iff ..).1 h
      have names : u.names = v.names ++ [t.name] := by simp [names, types]
      change u.registerAll ts = .error d ↔ _
      rw [ih, names]
      constructor
      · rintro ⟨front, t', back, rfl, distinct, taken, rfl⟩
        exact ⟨t :: front, t', back, rfl, by simpa using distinct, by simpa using taken, rfl⟩
      · rintro ⟨_ | ⟨u', front⟩, t', back, split, distinct, taken, rfl⟩
        · cases split
          exact absurd (by simpa using taken) new
        · cases split
          exact ⟨front, t', back, rfl, by simpa using distinct, by simpa using taken, rfl⟩

theorem registerAll_append (v : Vocabulary) (ts us : List MarkerType) :
    v.registerAll (ts ++ us) = v.registerAll ts >>= fun w => w.registerAll us := by
  induction ts generalizing v with
  | nil => rfl
  | cons t ts ih =>
    rw [List.cons_append, registerAll, registerAll]
    cases v.register t with
    | error d => rfl
    | ok u => exact ih u

theorem lookup?_of_perm (h : v.types.Perm w.types) (name : String) :
    v.lookup? name = w.lookup? name := by
  apply Option.ext
  intro t
  rw [lookup?_eq_some_iff, lookup?_eq_some_iff, h.mem_iff]

theorem lookup?_registerAll {name : String} (h : v.registerAll ts = .ok w)
    (other : ∀ t ∈ ts, t.name ≠ name) : w.lookup? name = v.lookup? name := by
  apply Option.ext
  intro t
  rw [lookup?_eq_some_iff, lookup?_eq_some_iff, (registerAll_eq_ok_iff.1 h).2, List.mem_append]
  constructor
  · rintro ⟨old | new, named⟩
    · exact ⟨old, named⟩
    · exact absurd named (other t new)
  · rintro ⟨old, named⟩
    exact ⟨.inl old, named⟩

theorem isEmpty_registerAll (h : v.registerAll ts = .ok w) (known : v.isEmpty = false) :
    w.isEmpty = false := by
  rw [isEmpty, List.isEmpty_eq_false_iff] at known ⊢
  rw [(registerAll_eq_ok_iff.1 h).2]
  exact List.append_ne_nil_of_left_ne_nil known ts

theorem registerAll_perm (h : v.registerAll ts = .ok w) (perm : ts.Perm us) :
    ∃ w', v.registerAll us = .ok w' ∧ w.types.Perm w'.types := by
  obtain ⟨distinct, types⟩ := registerAll_eq_ok_iff.1 h
  have distinct' := ((perm.map MarkerType.name).append_left v.names).nodup_iff.1 distinct
  have nodup : ((v.types ++ us).map MarkerType.name).Nodup := by simpa [names] using distinct'
  refine ⟨⟨v.types ++ us, nodup⟩, registerAll_eq_ok_iff.2 ⟨distinct', rfl⟩, ?_⟩
  rw [types]
  exact perm.append_left v.types

end Vocabulary

def Token.Calls (ts : List Token) (name : String) : Prop :=
  ∃ pair ∈ ts.zip ts.tail, pair.1.kind = .atSign ∧ pair.2.name? = some name

instance (ts : List Token) (name : String) : Decidable (Token.Calls ts name) :=
  inferInstanceAs (Decidable (∃ pair ∈ ts.zip ts.tail, _))

def Region.Calls (body name : String) : Prop :=
  ∃ r ∈ Region.ofBody? body, Token.Calls (Token.scan r.start r.text) name

instance (body name : String) : Decidable (Region.Calls body name) :=
  inferInstanceAs (Decidable (∃ r ∈ Region.ofBody? body, _))

theorem Token.Calls.append {us : List Token} {name : String} (ts : List Token) (h : Calls us name) :
    Calls (ts ++ us) name := by
  induction ts with
  | nil => exact h
  | cons t ts ih =>
    obtain ⟨pair, mem, called⟩ := ih
    refine ⟨pair, ?_, called⟩
    cases rest : ts ++ us with
    | nil => simp [rest] at mem
    | cons u rest' =>
      rw [rest] at mem
      rw [List.cons_append, rest]
      exact .tail _ mem

theorem Token.Calls.of_ahead {c d : Cursor} {name : String} (ahead : c.Ahead d)
    (h : Calls d.upcoming name) : Calls c.upcoming name := by
  obtain ⟨ts, split⟩ := ahead
  exact split ▸ h.append ts

namespace Rule

variable {v w : Vocabulary} {a : Allowance} {c : Cursor}

theorem marker?_congr (ends : c.Ends) (sign : c.current.kind = .atSign)
    (same : ∀ name, Token.Calls c.upcoming name → v.lookup? name = w.lookup? name) :
    marker? v a c = marker? w a c := by
  simp only [marker?]
  cases named : c.step.current.name? with
  | none => rfl
  | some name =>
    have upcoming : c.upcoming = c.current :: c.step.upcoming :=
      (ends.passes_step (by simp [sign])).upcoming
    have called : Token.Calls c.upcoming name := by
      refine ⟨(c.current, c.step.current), ?_, sign, named⟩
      rw [upcoming]
      exact .head _
    simp only [same name called]

theorem markers_congr_lookup? (steps : Nat) (ends : c.Ends)
    (same : ∀ name, Token.Calls c.upcoming name → v.lookup? name = w.lookup? name) :
    markers v a steps c = markers w a steps c := by
  induction steps generalizing c with
  | zero => rfl
  | succ steps ih =>
    have later : ∀ {d : Cursor}, c.Ahead d → markers v a steps d = markers w a steps d :=
      fun ahead => ih (ahead.ends ends) fun name called => same name (called.of_ahead ahead)
    by_cases finish : c.current.kind = .finish
    · rw [markers_finished finish, markers_finished finish]
    by_cases sign : c.current.kind = .atSign ∧ ¬ c.isGlued
    · rw [markers_sign sign.1 sign.2, markers_sign sign.1 sign.2, marker?_congr ends sign.1 same]
      apply bind_congr_ok
      rintro ⟨m?, d⟩ hm
      simp only [later (marker?_ahead ends hm)]
    · rw [markers_text finish sign, markers_text finish sign, later c.ahead_step]

end Rule

namespace Dialect

variable {v w : Vocabulary} {limits : Limits} {body : String}

theorem markers_congr_lookup? (hv : v.isEmpty = false) (hw : w.isEmpty = false)
    (same : ∀ name, Region.Calls body name → v.lookup? name = w.lookup? name) :
    markers ⟨v, limits⟩ body = markers ⟨w, limits⟩ body := by
  cases region : Region.ofBody? body with
  | none => rw [markers_of_none hv region, markers_of_none hw region]
  | some r =>
    have tokens : markersOf ⟨v, limits⟩ (Token.scan r.start r.text) =
        markersOf ⟨w, limits⟩ (Token.scan r.start r.text) := by
      apply Rule.markers_congr_lookup? _ (Cursor.ends_ofTokens _)
      intro name called
      rw [Cursor.upcoming_ofTokens, Token.finished_scan] at called
      exact same name ⟨r, region, called⟩
    rw [markers_of_region hv region, markers_of_region hw region, tokens]

theorem read_congr_lookup? (hv : v.isEmpty = false) (hw : w.isEmpty = false)
    (same : ∀ name, Region.Calls body name → v.lookup? name = w.lookup? name) :
    read ⟨v, limits⟩ body = read ⟨w, limits⟩ body := by
  rw [read, read, markers_congr_lookup? hv hw same]

theorem read_congr_perm (h : v.types.Perm w.types) :
    read ⟨v, limits⟩ body = read ⟨w, limits⟩ body := by
  cases known : v.isEmpty with
  | true =>
    have empty : v.types = [] := List.isEmpty_iff.1 known
    rw [Vocabulary.ext_types (empty.trans (List.nil_perm.1 (empty ▸ h)).symm)]
  | false =>
    have known' : w.isEmpty = false := by
      rw [Vocabulary.isEmpty, ← h.isEmpty_eq]
      exact known
    exact read_congr_lookup? known known' fun name _ => Vocabulary.lookup?_of_perm h name

theorem registerAll_eq_ok_iff {d e : Dialect} {ts : List MarkerType} :
    d.registerAll ts = .ok e ↔
      d.vocabulary.registerAll ts = .ok e.vocabulary ∧ e.limits = d.limits := by
  rw [registerAll]
  cases d.vocabulary.registerAll ts with
  | error duplicate => simp [Except.map]
  | ok v =>
    rcases e with ⟨w, limits⟩
    simp [Except.map, eq_comm]

theorem registerAll_append_eq_ok_iff {d e : Dialect} {ts us : List MarkerType} :
    d.registerAll (ts ++ us) = .ok e ↔ ∃ f, d.registerAll ts = .ok f ∧ f.registerAll us = .ok e := by
  simp only [registerAll_eq_ok_iff, Vocabulary.registerAll_append]
  cases h : d.vocabulary.registerAll ts with
  | error duplicate => simp [bind, Except.bind]
  | ok v =>
    change v.registerAll us = .ok e.vocabulary ∧ _ ↔ _
    constructor
    · rintro ⟨registered, limits⟩
      exact ⟨⟨v, d.limits⟩, ⟨rfl, rfl⟩, registered, limits⟩
    · rintro ⟨f, ⟨⟨⟩, limits⟩, registered, limits'⟩
      exact ⟨registered, limits'.trans limits⟩

end Dialect

/-- A comment is read alike under all vocabularies that have the same types for the names it calls.
So the order of registration does not count, nor does a type more that is not called. -/
theorem Dialect.read_depends_on_calls (body : String) :
    (∀ (limits : Limits) (v w : Vocabulary), v.isEmpty = false → w.isEmpty = false →
      (∀ name, Region.Calls body name → v.lookup? name = w.lookup? name) →
      read ⟨v, limits⟩ body = read ⟨w, limits⟩ body) ∧
    (∀ (d e : Dialect) (ts us : List MarkerType), d.registerAll ts = .ok e → ts.Perm us →
      ∃ e', d.registerAll us = .ok e' ∧ e'.read body = e.read body) ∧
    ∀ (d e : Dialect) (ts : List MarkerType), d.vocabulary.isEmpty = false →
      d.registerAll ts = .ok e → (∀ t ∈ ts, ¬ Region.Calls body t.name) →
      e.read body = d.read body := by
  refine ⟨?_, ?_, ?_⟩
  · intro limits v w hv hw same
    exact read_congr_lookup? hv hw same
  · rintro d ⟨w, limits⟩ ts us h perm
    obtain ⟨h, rfl⟩ := registerAll_eq_ok_iff.1 h
    obtain ⟨w', h', types⟩ := Vocabulary.registerAll_perm h perm
    exact ⟨⟨w', d.limits⟩, registerAll_eq_ok_iff.2 ⟨h', rfl⟩, (read_congr_perm types).symm⟩
  · rintro d ⟨w, limits⟩ ts known h uncalled
    obtain ⟨h, rfl⟩ := registerAll_eq_ok_iff.1 h
    apply read_congr_lookup? (Vocabulary.isEmpty_registerAll h known) known
    intro name called
    apply Vocabulary.lookup?_registerAll h
    rintro t mem rfl
    exact uncalled t mem called

theorem Dialect.read_depends_on_calls_nested :
    ∃ (d e e' : Dialect) (f : Findings),
      d.registerAll [⟨"q", []⟩, ⟨"n", []⟩] = .ok e ∧ d.registerAll [⟨"n", []⟩, ⟨"q", []⟩] = .ok e' ∧
      ¬ Region.Calls "@p(k = @r(n = 1)) mail@me" "n" ∧
      f.names = ["p"] ∧ d.read "@p(k = @r(n = 1)) mail@me" = .ok f ∧
      e.read "@p(k = @r(n = 1)) mail@me" = .ok f ∧ e'.read "@p(k = @r(n = 1)) mail@me" = .ok f ∧
      read ⟨e.vocabulary, d.limits⟩ "@p(k = @r(n = 1)) mail@me" = .ok f := by
  let d : Dialect := ⟨⟨[⟨"p", [("k", .marker ⟨"r", [("n", .scalar .integer)]⟩)]⟩], by simp⟩, ⟨2⟩⟩
  obtain ⟨names, order, more⟩ := read_depends_on_calls "@p(k = @r(n = 1)) mail@me"
  have read : ∃ f, d.read "@p(k = @r(n = 1)) mail@me" = .ok f ∧ f.names = ["p"] :=
    ⟨_, by cbv, by cbv⟩
  obtain ⟨f, read, single⟩ := read
  have uncalled : ¬ Region.Calls "@p(k = @r(n = 1)) mail@me" "q" ∧
      ¬ Region.Calls "@p(k = @r(n = 1)) mail@me" "n" := by decide +kernel
  obtain ⟨e, registered⟩ : ∃ e, d.registerAll [⟨"q", []⟩, ⟨"n", []⟩] = .ok e := ⟨_, rfl⟩
  have same := more d e _ rfl registered (by simpa using uncalled)
  obtain ⟨e', registered', same'⟩ := order d e _ _ registered (.swap ..)
  refine ⟨d, e, e', f, registered, registered', uncalled.2, single, read, same.trans read,
    same'.trans (same.trans read), ?_⟩
  rw [← names d.limits d.vocabulary e.vocabulary rfl (by cases registered; rfl), read]
  intro name called
  refine (Vocabulary.lookup?_registerAll (registerAll_eq_ok_iff.1 registered).1 ?_).symm
  simp only [List.mem_cons, List.not_mem_nil, or_false, forall_eq_or_imp, forall_eq]
  exact ⟨fun h => uncalled.1 (h ▸ called), fun h => uncalled.2 (h ▸ called)⟩

end DocMarks
