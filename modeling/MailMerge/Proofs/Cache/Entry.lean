import MailMerge.FieldCache
import MailMerge.Proofs.Json.Reading

/-!
# Entries of the cache

What is read of an entry is what was written, if anything is read. A field that was found in a
document is made again from its kind and the positions of its nodes, so that the entry for the
fields of a document describes these fields and no others (`entryFields?_entryText`).
-/

namespace MailMerge

open Xml

/-! ## Written entries -/

/-- What a written record is read as. -/
def FieldRecord.IsRead (r : FieldRecord) (x : Json) : Prop :=
  ∃ xs, x = .object [("kind", .string r.kind.label), ("positions", .array xs)] ∧
    List.Forall₂ Json.IsNumber r.positions xs

/-- What is read of a record. -/
def recordInterest : Json.Interest := .record [("kind", .whole), ("positions", .whole)]

theorem FieldRecord.written (r : FieldRecord) :
    Json.Written recordInterest r.toJson.compact.toList r.IsRead := by
  have hkind := Json.written_string .whole (by simp) r.kind.label
  have hpositions := Json.written_array .whole (by simp) r.positions (fun n => .integer n)
    Json.IsNumber fun n _ _ => Json.written_integer .whole (by simp) n
  have hpair := Json.written_pair recordInterest (by simp [recordInterest])
    ("kind", .string r.kind.label) ("positions", .array _) (by simp) hkind hpositions
  refine ⟨hpair.head, fun fuel depth rest x left hrest hx => ?_⟩
  obtain ⟨⟨_, _, rfl, rfl, xs, rfl, hxs⟩, hleft⟩ := hpair.read fuel depth rest x left hrest hx
  exact ⟨⟨xs, rfl, hxs⟩, hleft⟩

theorem FieldKind.ofJson?_label (kind : FieldKind) : ofJson? (.string kind.label) = some kind := by
  cases kind <;> decide

theorem mapM_position? {ns ms : List Nat} {xs : List Json} (h : List.Forall₂ Json.IsNumber ns xs)
    (hms : xs.mapM FieldRecord.position? = some ms) : ms = ns := by
  induction h generalizing ms with
  | nil => cases hms; rfl
  | cons hx _ ih =>
    rw [List.mapM_cons] at hms
    obtain ⟨m, hm, hms⟩ := Option.bind_eq_some_iff.1 hms
    obtain ⟨rest, hrest, hms⟩ := Option.bind_eq_some_iff.1 hms
    cases hms
    rcases hx with rfl | ⟨f, rfl⟩
    · cases hm
      rw [ih hrest, Int.toNat_natCast]
    · cases hm

/-- What is made of a record that was read is the record that was written. -/
theorem FieldRecord.IsRead.ofJson? {r r' : FieldRecord} {x : Json} (h : r.IsRead x)
    (hr : FieldRecord.ofJson? x = some r') : r' = r := by
  obtain ⟨xs, rfl, hxs⟩ := h
  have hrecord : (Json.object [("kind", .string r.kind.label), ("positions", .array xs)]).record?
      .ignored ["kind", "positions"] = some [some (.string r.kind.label), some (.array xs)] := rfl
  simp only [FieldRecord.ofJson?, hrecord, FieldKind.ofJson?_label] at hr
  obtain ⟨kind, hkind, hr⟩ := Option.bind_eq_some_iff.1 hr
  obtain ⟨positions, hpositions, hr⟩ := Option.bind_eq_some_iff.1 hr
  cases hkind
  cases hr
  rw [mapM_position? hxs hpositions]

theorem mapM_ofJson? {rs rs' : List FieldRecord} {xs : List Json}
    (h : List.Forall₂ FieldRecord.IsRead rs xs) (hrs : xs.mapM FieldRecord.ofJson? = some rs') :
    rs' = rs := by
  induction h generalizing rs' with
  | nil => cases hrs; rfl
  | cons hx _ ih =>
    rw [List.mapM_cons] at hrs
    obtain ⟨r, hr, hrs⟩ := Option.bind_eq_some_iff.1 hrs
    obtain ⟨rest, hrest, hrs⟩ := Option.bind_eq_some_iff.1 hrs
    cases hrs
    rw [hx.ofJson? hr, ih hrest]

/-- What is read of an entry is what was written. -/
theorem entryRecords?_entryText {rs rs' : List FieldRecord}
    (h : entryRecords? (entryText rs) = some rs') : rs' = rs := by
  have hversion := Json.written_string .whole (by simp) engineVersion
  have hfields := Json.written_array (.items recordInterest) (by simp) rs FieldRecord.toJson
    FieldRecord.IsRead fun r _ _ => r.written
  have hpair := Json.written_pair entryInterest (by simp [entryInterest])
    ("engine_version", .string engineVersion) ("fields", .array _) (by simp) hversion hfields
  rw [entryRecords?] at h
  split at h
  next version fields hread =>
    obtain ⟨x, hx, hrecord⟩ := Option.bind_eq_some_iff.1 hread
    obtain ⟨_, _, rfl, rfl, xs, rfl, hxs⟩ := hpair.parseFor? hx
    cases hrecord
    obtain ⟨records, hrecords, h⟩ := Option.bind_eq_some_iff.1 h
    rw [if_pos rfl] at h
    cases h
    exact mapM_ofJson? hxs hrecords
  next => cases h

/-! ## Fields made again -/

/-- Items are found again at the positions where they were found. -/
theorem mapM_getElem?_of_idxOf? {xs ys : List NodeId} {positions : List Nat}
    (h : ys.mapM (xs.idxOf? ·) = some positions) : positions.mapM (xs[·]?) = some ys := by
  induction ys generalizing positions with
  | nil => cases h; rfl
  | cons y ys ih =>
    rw [List.mapM_cons] at h
    obtain ⟨n, hn, h⟩ := Option.bind_eq_some_iff.1 h
    obtain ⟨ns, hns, h⟩ := Option.bind_eq_some_iff.1 h
    cases h
    obtain ⟨hlt, hget, -⟩ := List.idxOf?_eq_some_iff.1 hn
    rw [List.mapM_cons, List.getElem?_eq_getElem hlt, ih hns, hget]
    rfl

/-- A field that a node begins is the field of its kind over its nodes. -/
theorem Field.ofNodes?_of_ofNode? {d : Document} {x : NodeId} {node : Node} {field : Field}
    (h : Field.ofNode? d x node = some field) :
    Field.ofNodes? d field.kind field.nodes = some field := by
  rw [ofNode?] at h
  split at h
  · cases h; rfl
  · split at h
    · obtain ⟨first, -, rfl⟩ := Option.map_eq_some_iff.1 h
      rfl
    · split at h
      · cases h; rfl
      · cases h

theorem Field.mem_discover_iff {d : Document} {x : NodeId} {field : Field} :
    field ∈ discover d x ↔
      ∃ y node, (y, node) ∈ (d.tree x).nodes ∧ ofNode? d y node = some field ∧
        field.isValid = true := by
  simp [discover, Option.filter_eq_some_iff]

/-- A field that was found is made again from what an entry holds of it. -/
theorem FieldRecord.field?_of_ofField? {d : Document} {field : Field} {r : FieldRecord}
    (hfield : field ∈ Field.discover d d.root) (h : ofField? d field = some r) :
    r.field? d = some field := by
  obtain ⟨y, node, -, hnode, hvalid⟩ := Field.mem_discover_iff.1 hfield
  obtain ⟨positions, hpositions, rfl⟩ := Option.map_eq_some_iff.1 h
  simp [FieldRecord.field?, mapM_getElem?_of_idxOf? hpositions, Field.ofNodes?_of_ofNode? hnode,
    hvalid]

theorem mapM_field?_of_ofField? {d : Document} {fields : List Field} {rs : List FieldRecord}
    (hfields : ∀ field ∈ fields, field ∈ Field.discover d d.root)
    (h : fields.mapM (FieldRecord.ofField? d) = some rs) :
    rs.mapM (·.field? d) = some fields := by
  induction fields generalizing rs with
  | nil => cases h; rfl
  | cons field fields ih =>
    rw [List.mapM_cons] at h
    obtain ⟨r, hr, h⟩ := Option.bind_eq_some_iff.1 h
    obtain ⟨rest, hrest, h⟩ := Option.bind_eq_some_iff.1 h
    cases h
    rw [List.mapM_cons, FieldRecord.field?_of_ofField? (hfields field List.mem_cons_self) hr,
      ih (fun f hf => hfields f (List.mem_cons_of_mem _ hf)) hrest]
    rfl

/-- If anything is read of the entry for the fields of a document, it describes these fields. -/
theorem entryFields?_entryText {d : Document} {rs : List FieldRecord} {fields : List Field}
    (hrs : (Field.discover d d.root).mapM (FieldRecord.ofField? d) = some rs)
    (h : entryFields? d (entryText rs) = some fields) : fields = Field.discover d d.root := by
  obtain ⟨rs', hread, hfields⟩ := Option.bind_eq_some_iff.1 h
  rw [entryRecords?_entryText hread, mapM_field?_of_ofField? (fun _ hf => hf) hrs] at hfields
  cases hfields
  rfl

end MailMerge
