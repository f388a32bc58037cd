import MailMerge.Field
import MailMerge.FileTree
import MailMerge.Json.Reader
import MailMerge.Json.Shape
import MailMerge.Sha256

/-!
# The cache of fields

The fields of a part can be kept in a folder, under a name that is made from the text of the part.
An entry holds the kind of each field and the positions of its nodes in document order, from which
the field is made again. An entry that cannot be used counts as missing.
-/

namespace MailMerge

open Xml

/-- The version of the rules for fields; entries of other versions are not used. -/
def engineVersion : String := "0.1.0"

/-! ## Entries -/

/-- What an entry holds of a field: its kind and the positions of its nodes in document order. -/
structure FieldRecord where
  kind : FieldKind
  positions : List Nat
deriving DecidableEq, Repr

namespace FieldKind

/-- The name of a kind. -/
def label : FieldKind → String
  | simple => "simple"
  | complex => "complex"
  | image => "image"

/-- The kind of the given name. -/
def ofLabel? (s : String) : Option FieldKind := [simple, complex, image].find? (·.label == s)

/-- Reads a kind: its name, alone or as the only member, without content, of an object. -/
def ofJson? : Json → Option FieldKind
  | .string s => ofLabel? s
  | .object [(s, .null)] => ofLabel? s
  | _ => none

end FieldKind

namespace FieldRecord

/-- What an entry holds of a field, if all of its nodes are in the tree of the document. -/
def ofField? (d : Document) (field : Field) : Option FieldRecord :=
  (field.nodes.mapM ((d.descendants d.root).idxOf? ·)).map fun positions => ⟨field.kind, positions⟩

/-- Makes the field again, if all positions are in the document and the field has a directive. -/
def field? (d : Document) (r : FieldRecord) : Option Field := do
  let nodes ← r.positions.mapM ((d.descendants d.root)[·]?)
  let field ← Field.ofNodes? d r.kind nodes
  if field.isValid then some field else none

/-- The written form. -/
def toJson (r : FieldRecord) : Json :=
  .object [("kind", .string r.kind.label),
    ("positions", .array (r.positions.map fun (n : Nat) => .integer n))]

/-- Reads a position. -/
def position? : Json → Option Nat
  | .integer n => if 0 ≤ n then some n.toNat else none
  | _ => none

/-- Reads what an entry holds of a field. -/
def ofJson? (data : Json) : Option FieldRecord :=
  match data.record? .ignored ["kind", "positions"] with
  | some [some kind, some (.array positions)] => do
    let kind ← FieldKind.ofJson? kind
    let positions ← positions.mapM position?
    return ⟨kind, positions⟩
  | _ => none

end FieldRecord

/-- The text of the entry for the fields of a document. -/
def entryText (records : List FieldRecord) : String :=
  (Json.object [("engine_version", .string engineVersion),
    ("fields", .array (records.map FieldRecord.toJson))]).compact

/-- What of an entry is read. -/
def entryInterest : Json.Interest :=
  .record [("engine_version", .whole),
    ("fields", .items (.record [("kind", .whole), ("positions", .whole)]))]

/-- Reads an entry. -/
def entryRecords? (text : String) : Option (List FieldRecord) :=
  match (Json.parseFor? entryInterest text).bind
      (·.record? .ignored ["engine_version", "fields"]) with
  | some [some (.string version), some (.array fields)] => do
    let records ← fields.mapM FieldRecord.ofJson?
    if version = engineVersion then some records else none
  | _ => none

/-- The fields of a document that an entry describes. -/
def entryFields? (d : Document) (text : String) : Option (List Field) :=
  (entryRecords? text).bind fun records => records.mapM (·.field? d)

/-! ## The folder -/

/-- A cache: a folder of a tree of files, which need not be there yet. -/
structure FieldCache where
  folder : String
  files : FileTree
deriving Repr

/-- Why an entry cannot be written. -/
inductive CacheFault where
  /-- A node of a field is not in the tree of the document. -/
  | outsideDocument
  /-- A file cannot be written. -/
  | file (fault : FileFault)
deriving DecidableEq, Repr

namespace FieldCache

/-- The name of the entry of a key. -/
def entryName (key : String) : String := key ++ ".json"

/-- The name of the file that is locked while an entry is read or written. -/
def lockName (key : String) : String := key ++ ".lock"

/-- The name under which an entry is written before it gets its own: what comes after the last dot
is exchanged for something longer. After a dot alone nothing is left that could be a name. -/
def draftName (key : String) : String :=
  if (FileTree.parts key.toList).getLast? = some "." then key ++ "." else key ++ ".json.0000.tmp"

/-- A cache in a folder of an empty tree. -/
def empty : FieldCache := ⟨"cache", .empty⟩

/-- The path of a file of a cache. -/
def path (cache : FieldCache) (name : String) : String := FileTree.within cache.folder name

/-- Bytes in which the version and the text of a part cannot be confused. -/
def fingerprintBytes (source : String) : List UInt8 :=
  engineVersion.toUTF8.toList ++ 0 :: source.toUTF8.toList

/-- The key for the text of a part. -/
def fingerprint (source : String) : String := Text.hex (Sha256.hash (fingerprintBytes source))

/-- The text of the entry of a key. -/
def entry? (key : String) (cache : FieldCache) : Option String :=
  (cache.files.read (cache.path (entryName key))).toOption

/-- The fields that the entry of a key describes. A file to lock is left behind if there is an
entry, whether it can be used or not. -/
def load (key : String) (d : Document) (cache : FieldCache) : Option (List Field) × FieldCache :=
  if (cache.files.find? (cache.path (entryName key))).isNone then (none, cache)
  else
    match cache.files.touch (cache.path (lockName key)) with
    | .error _ => (none, cache)
    | .ok files =>
      let cache := { cache with files }
      (( cache.entry? key).bind (entryFields? d), cache)

/-- Writes the entry of a key, into a new folder if there is none yet. The folder and the file to
lock stay also when there is a fault later on. -/
def store (key : String) (d : Document) (fields : List Field) (cache : FieldCache) :
    Except CacheFault Unit × FieldCache :=
  match fields.mapM (FieldRecord.ofField? d) with
  | none => (.error .outsideDocument, cache)
  | some records =>
    let text := entryText records
    match cache.files.makeFolders cache.folder with
    | (.error fault, files) => (.error (.file fault), { cache with files })
    | (.ok (), files) =>
      match files.touch (cache.path (lockName key)) with
      | .error fault => (.error (.file fault), { cache with files })
      | .ok files =>
        match files.write (cache.path (draftName key)) text,
            files.write (cache.path (entryName key)) text with
        | .ok _, .ok files => (.ok (), { cache with files })
        | .error fault, _ | _, .error fault => (.error (.file fault), { cache with files })

/-- The fields of a document that was read from a text: those that its entry describes, or else
those that are found, for which an entry is then written if possible. -/
def discover (source : String) (d : Document) (cache : FieldCache) : List Field × FieldCache :=
  let key := fingerprint source
  match cache.load key d with
  | (some fields, cache) => (fields, cache)
  | (none, cache) =>
    let fields := Field.discover d d.root
    (fields, (cache.store key d fields).2)

/-- The names of what is in the folder. -/
def names (cache : FieldCache) : List String := cache.files.names cache.folder

end FieldCache

end MailMerge
