import DocMarks.Proofs.Entries
import DocMarks.Value.Render

namespace DocMarks

namespace Value

theorem jsonItems_eq (es : List (Key × Value)) : jsonItems es = es.map fun e => e.2.toJson :=
  eq_map_of_cons rfl (fun _ _ => rfl) es

theorem jsonMembers_eq (es : List (Key × Value)) :
    jsonMembers es = es.map fun e => (e.1.member, e.2.toJson) :=
  eq_map_of_cons rfl (fun _ _ => rfl) es

theorem jsonAttributes_eq (as : List (String × Value)) :
    jsonAttributes as = as.map fun a => (a.1, a.2.toJson) :=
  eq_map_of_cons rfl (fun _ _ => rfl) as

end Value

namespace Table

variable {t : Table}

theorem toJson_of_isList (list : t.isList) :
    t.toJson = .list (t.entries.map fun e => e.2.toJson) := by
  rw [← Value.jsonItems_eq]
  cases t
  exact if_pos list

theorem toJson_of_not_isList (list : ¬ t.isList) :
    t.toJson = .object (t.entries.map fun e => (e.1.member, e.2.toJson)) := by
  rw [← Value.jsonMembers_eq]
  cases t
  exact if_neg list

end Table

theorem Marker.toJson_eq (m : Marker) :
    m.toJson = .object [("name", .string m.name),
      ("attributes", .object (m.attributes.map fun a => (a.1, a.2.toJson)))] := by
  rw [← Value.jsonAttributes_eq]
  cases m
  rfl

end DocMarks
