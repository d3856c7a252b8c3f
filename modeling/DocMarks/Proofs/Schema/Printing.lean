import DocMarks.Proofs.Schema.Reader

namespace DocMarks

def Shape.expr : Shape → Schema.ShapeExpr
  | .scalar k => .name k.name
  | .marker t => .name t.name
  | .tableOf s => .list [s.expr]

namespace MarkerType

def declaration (t : MarkerType) : Json :=
  .object [("name", .string t.name),
    ("attributes", .object (t.attributes.map fun (k, s) => (k, s.toJson)))]

def decl (t : MarkerType) : Schema.TypeDecl :=
  ⟨t.name, t.attributes.map fun (k, s) => (k, s.expr)⟩

end MarkerType

def Schema.print (types : List MarkerType) (registered : Option (List String)) : Json :=
  .object (("types", .list (types.map MarkerType.declaration)) ::
    (registered.map fun ns => ("register", .list (ns.map .string))).toList)

theorem Shape.worded_toJson (s : Shape) : s.toJson.Worded := by
  induction s using Shape.induction with
  | scalar k => exact .string k.name
  | marker t _ => exact .string t.name
  | tableOf s ih => exact .list (List.forall_mem_singleton.2 ih)

theorem MarkerType.worded_declaration (t : MarkerType) : t.declaration.Worded := by
  apply Json.Worded.object
  rw [List.forall_mem_cons, List.forall_mem_singleton]
  refine ⟨.string t.name, .object ?_⟩
  rw [List.forall_mem_map]
  exact fun a _ => a.2.worded_toJson

theorem Schema.worded_print (types : List MarkerType) (registered : Option (List String)) :
    (print types registered).Worded := by
  apply Json.Worded.object
  rw [List.forall_mem_cons]
  constructor
  · apply Json.Worded.list
    rw [List.forall_mem_map]
    exact fun t _ => t.worded_declaration
  · cases registered with
    | none => exact fun _ mem => nomatch mem
    | some ns =>
      rw [Option.map_some, Option.toList_some, List.forall_mem_singleton]
      apply Json.Worded.list
      rw [List.forall_mem_map]
      exact fun n _ => .string n

namespace Schema

theorem ShapeExpr.ofJson?_raw_toJson (s : Shape) : ofJson? s.toJson.raw = some s.expr := by
  induction s using Shape.induction with
  | scalar k => exact congrArg (Option.map name) (Json.Raw.chars?_map_some k.name)
  | marker t _ => exact congrArg (Option.map name) (Json.Raw.chars?_map_some t.name)
  | tableOf s ih =>
    rw [Shape.toJson, Json.raw, Json.rawItems_eq, ofJson?, listOfJson?_eq, List.map_singleton,
      List.mapM_cons, ih]
    rfl

theorem ShapeExpr.Means.depth_eq {known : List MarkerType} {e : ShapeExpr} {s : Shape}
    (h : e.Means known s) {r : Json.Raw} (read : ofJson? r = some e) :
    s.toJson.raw.depth = r.depth := by
  induction h generalizing r with
  | scalar _ | marker _ _ =>
    cases r with
    | string us => rfl
    | list items =>
      obtain ⟨es, -, h⟩ := Option.map_eq_some_iff.1 read
      cases h
    | _ => cases read
  | table _ ih =>
    cases r with
    | string us =>
      obtain ⟨n, -, h⟩ := Option.map_eq_some_iff.1 read
      cases h
    | list items =>
      obtain ⟨es, read, h⟩ := Option.map_eq_some_iff.1 read
      cases h
      rw [listOfJson?_eq, mapM_eq_some_iff] at read
      obtain ⟨r, rest, item, none, rfl⟩ := List.forall₂_cons_right_iff.1 read
      cases List.forall₂_nil_right_iff.1 none
      simp [Shape.toJson, Json.raw, Json.rawItems, Json.Raw.depth, Json.Raw.depthItems, ih item]
    | _ => cases read

section Reading

variable {t : MarkerType} {types : List MarkerType}

theorem attributesOfJson?_raw {shapes : List (String × Shape)}
    (nodup : (Entries.keys shapes).Nodup) :
    attributesOfJson? (Json.object (shapes.map fun (k, s) => (k, s.toJson))).raw =
      some (shapes.map fun (k, s) => (k, s.expr)) := by
  have read : (shapes.map fun a => (a.1, a.2.toJson.raw)).mapM
      (fun e => (ShapeExpr.ofJson? e.2).map (e.1, ·)) =
        some (shapes.map fun a => (a.1, a.2.expr)) := by
    rw [List.mapM_map]
    apply mapM_of_forall_mem
    intro a _
    simp [ShapeExpr.ofJson?_raw_toJson]
  have distinct : (Entries.keys (shapes.map fun a => (a.1, a.2.expr))).Nodup := by
    rwa [Entries.keys, List.map_map]
  rw [attributesOfJson?, Json.object?_raw_object, List.map_map]
  change Option.bind (List.mapM _ (shapes.map fun a => (a.1, a.2.toJson.raw))) _ = _
  rw [read, Option.bind_some, Entries.ofList_of_nodup distinct]
  rfl

theorem ofJson?_raw_declaration (nodup : (Entries.keys t.attributes).Nodup) :
    TypeDecl.ofJson? t.declaration.raw = some t.decl := by
  rw [TypeDecl.ofJson?_eq, MarkerType.declaration,
    Json.record?_raw_object .refused (by simp) (by simp [Entries.keys])]
  simp [Entries.get?, attributesOfJson?_raw nodup, MarkerType.decl]

theorem registeredOfJson?_raw (ns : List String) :
    registeredOfJson? (Json.list (ns.map .string)).raw = some (some ns) := by
  have read : ((ns.map Json.string).map Json.raw).mapM Json.Raw.text? = some (ns.map id) := by
    rw [List.mapM_map, List.mapM_map]
    exact mapM_of_forall_mem fun n _ => Json.text?_raw_string n
  rw [List.map_id] at read
  rw [registeredOfJson?, if_neg (by rw [Json.raw]; exact Bool.false_ne_true), Json.list?_raw_list]
  simp only [Option.bind_eq_bind, Option.bind_some, read]
  rfl

theorem depth_raw_declaration_le {n : Nat} (h : ∀ a ∈ t.attributes, a.2.toJson.raw.depth ≤ n) :
    t.declaration.raw.depth ≤ n + 2 := by
  apply Json.depth_raw_object_le
  rw [List.forall_mem_cons, List.forall_mem_singleton]
  refine ⟨Nat.zero_le _, Json.depth_raw_object_le ?_⟩
  rw [List.forall_mem_map]
  exact h

theorem depth_raw_print_le {n : Nat} (h : ∀ t ∈ types, t.declaration.raw.depth ≤ n)
    (registered : Option (List String)) : (print types registered).raw.depth ≤ n + 2 := by
  apply Json.depth_raw_object_le
  rw [List.forall_mem_cons]
  constructor
  · apply Json.depth_raw_list_le
    rwa [List.forall_mem_map]
  · cases registered with
    | none => exact fun _ mem => nomatch mem
    | some ns =>
      rw [Option.map_some, Option.toList_some, List.forall_mem_singleton]
      apply Json.depth_raw_list_le
      rw [List.forall_mem_map]
      exact fun _ _ => Nat.zero_le n

theorem ofText?_compact_print (nodup : ∀ t ∈ types, (Entries.keys t.attributes).Nodup)
    (shallow : ∀ t ∈ types, ∀ a ∈ t.attributes, a.2.toJson.raw.depth ≤ 123)
    (registered : Option (List String)) :
    ofText? (print types registered).compact = some ⟨types.map MarkerType.decl, registered⟩ := by
  have depth : (print types registered).raw.depth ≤ 127 :=
    depth_raw_print_le (fun t mem => depth_raw_declaration_le (shallow t mem)) registered
  rw [ofText?, (worded_print types registered).ofText?_compact, Option.bind_some, ofJson?_eq depth]
  have declared : types.mapM (TypeDecl.ofJson? ∘ Json.raw ∘ MarkerType.declaration) =
      some (types.map MarkerType.decl) :=
    mapM_of_forall_mem fun t mem => ofJson?_raw_declaration (nodup t mem)
  cases registered with
  | none =>
    rw [print, Json.record?_raw_object .refused (by simp) (by simp [Entries.keys])]
    simp [Entries.get?, declared]
  | some ns =>
    rw [print, Json.record?_raw_object .refused (by simp) (by simp [Entries.keys])]
    simp [Entries.get?, declared, registeredOfJson?_raw]

end Reading

section Declaring

variable {known w : Vocabulary} {d : TypeDecl} {ds : List TypeDecl} {t : MarkerType}

theorem ShapeExpr.Means.expr {types : List MarkerType} {e : ShapeExpr} {s : Shape}
    (h : e.Means types s) : s.expr.Means types s := by
  induction h with
  | @scalar n kind _ => exact .scalar (ofName?_eq_some_iff.1 kind.ofName?_name)
  | marker other mem => exact .marker other mem
  | table _ ih => exact .table ih

theorem ShapeExpr.Means.resolve_eq {e : ShapeExpr} {s : Shape} (h : e.Means known.types s)
    (marker key : String) : e.resolve known marker key = .ok s := by
  induction h with
  | scalar listed => simp only [resolve, ofName?_eq_some_iff.2 listed]
  | @marker t other mem =>
    have found := (known.lookup?_eq_some_iff t.name t).2 ⟨mem, rfl⟩
    simp only [resolve, ofName?_eq_none_iff.2 other, found]
  | table _ ih => rw [resolve, ih]; rfl

theorem resolveAttributes_expr {shapes : List (String × Shape)}
    (h : ∀ a ∈ shapes, a.2.expr.Means known.types a.2) (marker : String) :
    resolveAttributes known marker (shapes.map fun (k, s) => (k, s.expr)) = .ok shapes := by
  induction shapes with
  | nil => rfl
  | cons a shapes ih =>
    rw [List.forall_mem_cons] at h
    rw [List.map_cons, resolveAttributes, h.1.resolve_eq, ih h.2]
    rfl

theorem TypeDecl.declare_decl (means : d.Means known.types t) (types : w.types = known.types ++ [t]) :
    t.decl.declare known = .ok w := by
  have new : t.name ∉ known.names := by
    have distinct := w.distinct
    rw [types, List.map_append, List.nodup_append] at distinct
    exact fun taken => distinct.2.2 _ taken _ (.head _) rfl
  have shapes : ∀ a ∈ t.attributes, a.2.expr.Means known.types a.2 := by
    intro a mem
    obtain ⟨b, -, meant⟩ := means.exists_of_mem mem
    exact meant.expr
  have same : MarkerType.declare t.name t.attributes = t := by
    obtain ⟨name, attributes⟩ := t
    rw [MarkerType.declare, Entries.ofList_of_nodup means.distinct]
  have added := (known.register_eq_ok_iff w t).2 ⟨new, types⟩
  rw [TypeDecl.declare]
  simp only [MarkerType.decl, Vocabulary.contains_eq_false_iff.2 new, Bool.false_eq_true, if_false]
  rw [resolveAttributes_expr shapes]
  change ((known.register (MarkerType.declare t.name t.attributes)).mapError _) = _
  rw [same, added]
  rfl

theorem declareAll_decl (h : declareAll known ds = .ok w) :
    ∃ ts, w.types = known.types ++ ts ∧ declareAll known (ts.map MarkerType.decl) = .ok w := by
  induction ds generalizing known with
  | nil =>
    cases h
    exact ⟨[], by simp, rfl⟩
  | cons d ds ih =>
    rw [declareAll] at h
    cases first : d.declare known with
    | error f =>
      rw [first] at h
      cases h
    | ok v =>
      rw [first] at h
      obtain ⟨t, means, types⟩ := (first ▸ d.declare_reports : Reports _ _ (.ok v)).of_ok
      obtain ⟨ts, types', rest⟩ := ih h
      refine ⟨t :: ts, by rw [types', types, List.append_assoc, List.singleton_append], ?_⟩
      rw [List.map_cons, declareAll, TypeDecl.declare_decl means types]
      exact rest

end Declaring

theorem load_of_ofText? {text : String} {s : Schema} (h : ofText? text = some s)
    (limits : Limits) : load text limits = s.dialect limits := by
  rw [load, h]

theorem Declared.exists_means {types : List MarkerType} {ds : List TypeDecl}
    {ts : List MarkerType} (h : Declared types ds ts) {t : MarkerType} (mem : t ∈ ts) :
    ∃ d ∈ ds, ∃ known, d.Means known t := by
  obtain ⟨i, hi, rfl⟩ := List.getElem_of_mem mem
  have hi' : i < ds.length := h.length_eq ▸ hi
  exact ⟨ds[i], List.getElem_mem hi', _,
    h.means i _ _ (List.getElem?_eq_getElem hi') (List.getElem?_eq_getElem hi)⟩

theorem Declared.nodup_keys {types : List MarkerType} {ds : List TypeDecl}
    {ts : List MarkerType} (h : Declared types ds ts) :
    ∀ t ∈ ts, (Entries.keys t.attributes).Nodup := by
  intro t mem
  obtain ⟨d, -, known, means⟩ := h.exists_means mem
  exact means.distinct

section File

variable {s : Schema} {j : Json.Raw} {types ts : List MarkerType}

theorem Declared.depth_le (h : Declared types s.types ts) (file : ofJson? j = some s) :
    ∀ t ∈ ts, ∀ a ∈ t.attributes, a.2.toJson.raw.depth ≤ 123 := by
  intro t mem a member
  obtain ⟨d, decl, known, means⟩ := h.exists_means mem
  obtain ⟨b, written, means⟩ := means.exists_of_mem member
  obtain ⟨r, item, below⟩ := ofJson?_spec file d decl
  obtain ⟨r', shape, below'⟩ := (TypeDecl.ofJson?_spec item).2 b written
  rw [means.depth_eq shape]
  omega

theorem Declared.map_keys_eq (h : Declared types s.types ts) (file : ofJson? j = some s) :
    ts.map (fun t => Entries.keys t.attributes) =
      s.types.map fun d => Entries.keys d.attributes := by
  apply h.map_eq
  intro d decl known t means
  obtain ⟨r, item, -⟩ := ofJson?_spec file d decl
  rw [means.keys_eq, Entries.eraseDups_keys (TypeDecl.ofJson?_spec item).1]

end File

theorem dialect_print {s : Schema} {limits : Limits} {d : Dialect} (h : s.dialect limits = .ok d) :
    ∃ known, declareAll {} s.types = .ok known ∧ Declared [] s.types known.types ∧
      (mk (known.types.map MarkerType.decl) s.registered).dialect limits = .ok d := by
  cases declared : declareAll {} s.types with
  | error f =>
    rw [dialect, vocabulary, declared] at h
    cases h
  | ok known =>
    have reported := declareAll_reports {} s.types
    rw [declared] at reported
    obtain ⟨ts, means, types⟩ := reported.of_ok
    have types : known.types = ts := types
    obtain ⟨ts', types', again⟩ := declareAll_decl declared
    have types' : known.types = ts' := types'
    refine ⟨known, rfl, types ▸ means, ?_⟩
    rw [← h, dialect, dialect, vocabulary, vocabulary, declared]
    simp only [types', again]

/-- A schema that loads, printed from the types that it declares, loads as the same dialect however
it is spelled; printing keeps the types, their attributes and the registered names in order. -/
theorem load_print {text : String} {limits : Limits} {d : Dialect} (h : load text limits = .ok d) :
    ∃ (s s' : Schema) (known : Vocabulary),
      ofText? text = some s ∧ declareAll {} s.types = .ok known ∧
      ofText? (print known.types s.registered).compact = some s' ∧
      s'.types.map TypeDecl.name = s.types.map TypeDecl.name ∧
      s'.types.map (fun t => Entries.keys t.attributes) =
        s.types.map (fun t => Entries.keys t.attributes) ∧
      s'.registered = s.registered ∧
      load (print known.types s.registered).compact limits = .ok d ∧
      ∀ spelled, ofText? spelled = some s' → load spelled limits = .ok d := by
  rw [load] at h
  cases read : ofText? text with
  | none =>
    rw [read] at h
    cases h
  | some s =>
    rw [read] at h
    obtain ⟨j, -, file⟩ := Option.bind_eq_some_iff.1 read
    obtain ⟨known, declared, means, loads⟩ := dialect_print h
    have printed := ofText?_compact_print means.nodup_keys (means.depth_le file) s.registered
    have names : (known.types.map MarkerType.decl).map TypeDecl.name =
        s.types.map TypeDecl.name := by
      rw [List.map_map, ← means.map_name_eq]
      rfl
    have keys : (known.types.map MarkerType.decl).map (fun t => Entries.keys t.attributes) =
        s.types.map (fun t => Entries.keys t.attributes) := by
      rw [List.map_map, ← means.map_keys_eq file]
      simp [MarkerType.decl, Entries.keys]
    have reloads : ∀ spelled,
        ofText? spelled = some ⟨known.types.map MarkerType.decl, s.registered⟩ →
          load spelled limits = .ok d :=
      fun spelled same => (load_of_ofText? same limits).trans loads
    exact ⟨s, _, known, rfl, declared, printed, names, keys, rfl, reloads _ printed, reloads⟩

theorem load_print_aliases :
    ∃ (text : String) (s : Schema) (d : Dialect), ofText? text = some s ∧
      s.types = [⟨"int", []⟩, ⟨"a", [("y", .name "boolean"), ("x", .name "int")]⟩,
        ⟨"b", [("z", .list [.list [.name "a"]])]⟩] ∧
      load text ⟨8⟩ = .ok d ∧ d.vocabulary.names = ["b"] ∧
      load ("\x7b\"types\":[\x7b\"name\":\"int\",\"attributes\":\x7b\x7d\x7d," ++
        "\x7b\"name\":\"a\",\"attributes\":\x7b\"y\":\"bool\",\"x\":\"integer\"\x7d\x7d," ++
        "\x7b\"name\":\"b\",\"attributes\":\x7b\"z\":[[\"a\"]]\x7d\x7d]," ++
        "\"register\":[\"b\"]\x7d") ⟨8⟩ = .ok d := by
  let s : Schema := ⟨[⟨"int", []⟩, ⟨"a", [("y", .name "boolean"), ("x", .name "int")]⟩,
    ⟨"b", [("z", .list [.list [.name "a"]])]⟩], some ["b"]⟩
  have decoded : ofText? ("\x7b\"types\": [\x7b\"name\": \"int\"\x7d, " ++
      "[\"a\", \x7b\"y\": \"boolean\", \"x\": \"int\"\x7d], " ++
      "\x7b\"name\": \"b\", \"attributes\": \x7b\"z\": [[\"a\"]]\x7d\x7d], " ++
      "\"register\": [\"b\"]\x7d") = some s := by cbv
  obtain ⟨d, h, names⟩ : ∃ d, s.dialect ⟨8⟩ = .ok d ∧ d.vocabulary.names = ["b"] :=
    ⟨_, rfl, rfl⟩
  have loads := (load_of_ofText? decoded ⟨8⟩).trans h
  obtain ⟨s', s'', known, read, declared, -, -, -, -, printed, -⟩ := load_print loads
  cases decoded.symm.trans read
  cases declared
  exact ⟨_, s, d, decoded, rfl, loads, names, printed⟩

end Schema

end DocMarks
