import MailMerge.FieldCache

/-!
# Files of a cache

The path of a file of a cache leads to one place if it leads anywhere, whatever folders there are on
the way. Reading and storing entries writes files only at the places of the cache, and each file
gets the text of the entry of its key (`store_keeps`).
-/

namespace MailMerge

namespace FileTree

variable {tree left : FileTree} {place wanted : List String} {path text : String}

/-! ## Where paths lead -/

/-- The place to which a part of a path leads from another one, if all is there. -/
def advance (place : List String) (part : String) : List String :=
  if stays part then place else if part = ".." then place.dropLast else place ++ [part]

/-- A path that can be followed leads where its parts lead. -/
theorem follow_eq_foldl {route : List String} (h : tree.follow place route = .ok wanted) :
    wanted = route.foldl advance place := by
  induction route generalizing place with
  | nil => cases h; rfl
  | cons part rest ih =>
    rw [follow] at h
    rw [List.foldl_cons, advance]
    split at h
    next => cases h
    next =>
      split at h
      next hstays => rw [if_pos hstays, ih h]
      next hstays =>
        rw [if_neg hstays]
        split at h
        next hup => rw [if_pos hup, ih h]
        next hup =>
          split at h
          next => cases h
          next => rw [if_neg hup, ih h]
    next => cases h

/-- A name of a file is a single part of a path, and none that stands for a folder. -/
structure IsName (name : String) : Prop where
  noSlash : '/' ∉ name.toList
  long : 2 < name.toList.length

theorem IsName.advance {name : String} (h : IsName name) (place : List String) :
    advance place name = place ++ [name] := by
  have hlong := h.long
  have hstays : stays name = false := by
    simp only [stays, Bool.or_eq_false_iff, decide_eq_false_iff_not]
    constructor <;> rintro rfl <;> simp at hlong
  have hup : name ≠ ".." := by
    rintro rfl
    simp at hlong
  rw [FileTree.advance, hstays, if_neg (by simp), if_neg hup]

theorem IsName.parts {name : String} (h : IsName name) : parts name.toList = [name] := by
  have hsplit : name.toList.splitOn '/' = [name.toList] :=
    List.splitOnP_eq_singleton fun c hc => by
      simpa using fun heq : c = '/' => h.noSlash (heq ▸ hc)
  rw [FileTree.parts, hsplit, List.map_singleton, String.ofList_toList]

theorem parts_append_slash (folder name : List Char) :
    parts (folder ++ '/' :: name) = parts folder ++ parts name := by
  have hsplit : (folder ++ '/' :: name).splitOn '/' = folder.splitOn '/' ++ name.splitOn '/' :=
    List.splitOnP_append_cons folder name (by simp)
  rw [parts, hsplit, List.map_append]
  rfl

/-- The place of a folder, whether it is there or not. -/
def folderPlace (tree : FileTree) (folder : String) : List String :=
  (parts folder.toList).foldl advance (tree.start folder.toList)

/-- The path of a file in a folder leads to the place of its name in that of the folder. -/
theorem place_within {folder name : String} (hname : IsName name)
    (h : tree.place (within folder name) = .ok wanted) :
    wanted = tree.folderPlace folder ++ [name] := by
  have hhead : name.toList.head? ≠ some '/' :=
    fun heq => hname.noSlash (List.mem_of_mem_head? (by simp [heq]))
  have hfollow : ∀ path : String, tree.place path = .ok wanted →
      tree.follow (tree.start path.toList) (parts path.toList) = .ok wanted := by
    intro path hplace
    simp only [FileTree.place] at hplace
    split at hplace
    · cases hplace
    · split at hplace
      · cases hplace
      · split at hplace
        · cases hplace
        · exact hplace
  have hwanted := follow_eq_foldl (hfollow _ h)
  rw [within] at hwanted
  by_cases hempty : folder.isEmpty
  · have hnil : folder.toList = [] := by simpa using hempty
    rw [if_pos (by simp [hempty]), hname.parts, List.foldl_cons, List.foldl_nil,
      hname.advance] at hwanted
    rw [hwanted, folderPlace, hnil, start, start, if_neg hhead, if_neg (by simp)]
    rfl
  · obtain ⟨c, cs, hcs⟩ : ∃ c cs, folder.toList = c :: cs :=
      List.exists_cons_of_ne_nil (by simpa using hempty)
    have htext : (folder ++ "/" ++ name).toList = folder.toList ++ '/' :: name.toList := by simp
    rw [if_neg (by simp [hempty, hhead]), htext, parts_append_slash, hname.parts,
      List.foldl_append, List.foldl_cons, List.foldl_nil, hname.advance] at hwanted
    rw [hwanted, folderPlace, hcs]
    rfl

/-! ## What is written -/

/-- Paths start from where they started, and every file was there before or is one of the new ones
with its text. -/
structure Gains (tree : FileTree) (new : List String → String → Prop) (left : FileTree) : Prop where
  home : left.home = tree.home
  file : ∀ place text, left.item? place = some (.file text) →
    tree.item? place = some (.file text) ∨ new place text

variable {new : List String → String → Prop}

theorem Gains.refl (tree : FileTree) (new : List String → String → Prop) : tree.Gains new tree :=
  ⟨rfl, fun _ _ h => .inl h⟩

theorem Gains.trans {next : FileTree} (h : tree.Gains new left) (h' : left.Gains new next) :
    tree.Gains new next := by
  refine ⟨h'.home.trans h.home, fun place text hfile => ?_⟩
  rcases h'.file place text hfile with hfile | hnew
  · exact h.file place text hfile
  · exact .inr hnew

theorem gains_put (tree : FileTree) {item : FileItem}
    (h : ∀ text, item = .file text → new place text) : tree.Gains new (tree.put place item) := by
  refine ⟨rfl, fun wanted text hfile => ?_⟩
  have hne : wanted ≠ [] := by
    rintro rfl
    cases hfile
  rw [item?_put tree place wanted item hne] at hfile
  split at hfile
  next heq =>
    cases hfile
    exact .inr (heq ▸ h text rfl)
  next => exact .inl hfile

theorem exists_of_bind_eq_ok {ε α β : Type} {x : Except ε α} {f : α → Except ε β} {b : β}
    (h : x >>= f = .ok b) : ∃ a, x = .ok a ∧ f a = .ok b := by
  cases x with
  | error => cases h
  | ok a => exact ⟨a, rfl, h⟩

/-- A file is written at the place to which its path leads. -/
theorem place_of_target (h : tree.target path = .ok place) : tree.place path = .ok place := by
  simp only [target] at h
  split at h
  · obtain ⟨_, -, h⟩ := exists_of_bind_eq_ok h
    cases h
  · obtain ⟨found, hfound, h⟩ := exists_of_bind_eq_ok h
    split at h
    · cases h
    · cases h
      exact hfound

theorem gains_touch (h : tree.touch path = .ok left)
    (hnew : ∀ place, tree.place path = .ok place → new place "") : tree.Gains new left := by
  rw [touch] at h
  obtain ⟨place, hplace, h⟩ := exists_of_bind_eq_ok h
  split at h
  · cases h
    refine gains_put tree fun text heq => ?_
    cases heq
    exact hnew place (place_of_target hplace)
  · cases h
    exact .refl tree new

theorem gains_write (h : tree.write path text = .ok left)
    (hnew : ∀ place, tree.place path = .ok place → new place text) : tree.Gains new left := by
  rw [write] at h
  obtain ⟨place, hplace, h⟩ := exists_of_bind_eq_ok h
  split at h
  · cases h
    exact .refl tree new
  · split at h
    · cases h
      exact .refl tree new
    · cases h
  · cases h
    exact ⟨rfl, fun _ _ hfile => .inl hfile⟩
  · cases h
    refine gains_put tree fun text heq => ?_
    cases heq
    exact hnew place (place_of_target hplace)

theorem gains_makeFrom (tree : FileTree) (place route : List String) :
    tree.Gains new (tree.makeFrom place route).2 := by
  induction route generalizing tree place with
  | nil => exact .refl tree new
  | cons part rest ih =>
    rw [makeFrom]
    split
    · exact ih tree place
    · split
      · exact ih tree place.dropLast
      · split
        · exact .refl tree new
        · simp only
          split
          · exact ih tree _
          · exact .refl tree new
          · exact (gains_put tree fun text heq => by cases heq).trans (ih _ _)

theorem gains_makeFolders (path : String) (tree : FileTree) :
    tree.Gains new (tree.makeFolders path).2 := by
  simp only [makeFolders]
  split
  · exact .refl tree new
  · split
    · exact .refl tree new
    · exact gains_makeFrom tree _ _

end FileTree

namespace FieldCache

open FileTree

variable {cache : FieldCache} {key source text : String} {d : Xml.Document} {fields : List Field}

/-! ## Names -/

theorem hexDigit_ne_slash {n : Nat} (hn : n < 16) : '/' ≠ Text.hexDigit n := by
  have h : ∀ m : Fin 16, '/' ≠ Text.hexDigit m := by decide
  exact h ⟨n, hn⟩

theorem noSlash_fingerprint (source : String) : '/' ∉ (fingerprint source).toList := by
  rw [fingerprint, Text.hex, String.toList_ofList, List.mem_flatMap]
  rintro ⟨b, -, hb⟩
  have hlt : b.toNat < 256 := UInt8.toNat_lt b
  simp only [Text.hexByte, List.mem_cons, List.not_mem_nil, or_false] at hb
  rcases hb with h | h
  · exact hexDigit_ne_slash (by omega) h
  · exact hexDigit_ne_slash (by omega) h

theorem isName_entryName (hkey : '/' ∉ key.toList) : IsName (entryName key) := by
  refine ⟨?_, ?_⟩
  · simp [entryName, hkey]
  · simp [entryName]

theorem isName_lockName (hkey : '/' ∉ key.toList) : IsName (lockName key) := by
  refine ⟨?_, ?_⟩
  · simp [lockName, hkey]
  · simp [lockName]

theorem entryName_ne_lockName (key key' : String) : entryName key ≠ lockName key' := by
  intro h
  have hlast := congrArg (fun s : String => s.toList.getLast?) h
  simp [entryName, lockName] at hlast

theorem entryName_inj {key key' : String} (h : entryName key = entryName key') : key = key' := by
  have hlist := congrArg String.toList h
  exact String.toList_inj.1 (by simpa [entryName] using hlist)

/-! ## Entries -/

/-- The place of the folder of a cache. -/
def place (cache : FieldCache) : List String := cache.files.folderPlace cache.folder

/-- All entries of a cache have texts that are right for their keys. -/
def Entries (cache : FieldCache) (right : String → String → Prop) : Prop :=
  ∀ key text, cache.files.item? (cache.place ++ [entryName key]) = some (.file text) →
    right key text

/-- The only new files are entries with texts that are right for their keys, and files to lock. -/
def Writes (right : String → String → Prop) (folder place : List String) (text : String) : Prop :=
  (∃ key, place = folder ++ [entryName key] ∧ right key text) ∨
    ∃ key, place = folder ++ [lockName key]

variable {right : String → String → Prop} {files left : FileTree}

theorem folderPlace_of_home (h : files.home = cache.files.home) :
    files.folderPlace cache.folder = cache.place := by
  simp only [place, folderPlace, start, h]

/-- Entries stay right when only right ones are written. -/
theorem Entries.gains (hc : cache.Entries right)
    (h : cache.files.Gains (Writes right cache.place) files) :
    Entries { cache with files } right := by
  intro key text hfile
  rw [show place { cache with files } = cache.place from folderPlace_of_home h.home] at hfile
  rcases h.file _ _ hfile with hfile | ⟨key', hplace, hright⟩ | ⟨key', hplace⟩
  · exact hc key text hfile
  · have hname := List.singleton_inj.1 (List.append_cancel_left hplace)
    exact entryName_inj hname ▸ hright
  · have hname := List.singleton_inj.1 (List.append_cancel_left hplace)
    exact absurd hname (entryName_ne_lockName key key')

/-- Locking a key only makes a file to lock. -/
theorem gains_lock (hkey : '/' ∉ key.toList) (hhome : files.home = cache.files.home)
    (h : files.touch (cache.path (lockName key)) = .ok left) :
    files.Gains (Writes right cache.place) left := by
  refine gains_touch h fun wanted hplace => .inr ⟨key, ?_⟩
  rw [place_within (isName_lockName hkey) hplace, folderPlace_of_home hhome]

/-- Storing only writes the entry of the key and a file to lock. -/
theorem gains_store (cache : FieldCache) (hkey : '/' ∉ key.toList)
    (hright : ∀ rs, fields.mapM (FieldRecord.ofField? d) = some rs → right key (entryText rs)) :
    (cache.store key d fields).2.folder = cache.folder ∧
      cache.files.Gains (Writes right cache.place) (cache.store key d fields).2.files := by
  rw [store]
  split
  next => exact ⟨rfl, .refl _ _⟩
  next rs hrs =>
    have hmade : cache.files.Gains (Writes right cache.place)
        (cache.files.makeFolders cache.folder).2 := gains_makeFolders _ _
    simp only
    split
    next files hfolders =>
      rw [hfolders] at hmade
      exact ⟨rfl, hmade⟩
    next files hfolders =>
      rw [hfolders] at hmade
      split
      next => exact ⟨rfl, hmade⟩
      next locked hlocked =>
        have hlock := hmade.trans (gains_lock hkey hmade.home hlocked)
        split
        next written _ hwritten =>
          refine ⟨rfl, hlock.trans (gains_write hwritten fun wanted hplace => .inl ⟨key, ?_, ?_⟩)⟩
          · rw [place_within (isName_entryName hkey) hplace, folderPlace_of_home hlock.home]
          · exact hright rs hrs
        next => exact ⟨rfl, hlock⟩
        next => exact ⟨rfl, hlock⟩

/-- An entry that is read stands at its place, unless it is empty. -/
theorem item?_of_entry? (hkey : '/' ∉ key.toList) (h : cache.entry? key = some text) :
    cache.files.item? (cache.place ++ [entryName key]) = some (.file text) ∨ text = "" := by
  unfold entry? at h
  cases hread : cache.files.read (cache.path (entryName key)) with
  | error => rw [hread] at h; cases h
  | ok found =>
    rw [hread] at h
    cases h
    rw [FileTree.read] at hread
    obtain ⟨wanted, hplace, hread⟩ := exists_of_bind_eq_ok hread
    rw [place_within (isName_entryName hkey) hplace] at hread
    split at hread
    · cases hread
    · cases hread
    next heq =>
      cases hread
      exact .inl heq
    · cases hread
      exact .inr rfl

theorem entryFields?_empty (d : Xml.Document) : entryFields? d "" = none := by
  have h : Json.parseFor? entryInterest "" = none := by
    simp [Json.parseFor?, entryInterest, Json.value, Json.skip]
  rw [entryFields?, entryRecords?, h]
  rfl

/-- What is loaded is described by the entry of the key; only a file to lock is made. -/
theorem load_eq (hkey : '/' ∉ key.toList) (hc : cache.Entries right) :
    (cache.load key d).2.folder = cache.folder ∧ (cache.load key d).2.Entries right ∧
      ∀ found, (cache.load key d).1 = some found →
        ∃ text, right key text ∧ entryFields? d text = some found := by
  rw [load]
  split
  · exact ⟨rfl, hc, fun _ h => by cases h⟩
  · split
    next => exact ⟨rfl, hc, fun _ h => by cases h⟩
    next files hfiles =>
      have hlocked := hc.gains (gains_lock hkey rfl hfiles)
      refine ⟨rfl, hlocked, fun found hfound => ?_⟩
      obtain ⟨text, htext, hfields⟩ := Option.bind_eq_some_iff.1 hfound
      rcases item?_of_entry? hkey htext with hitem | rfl
      · exact ⟨text, hlocked key text hitem, hfields⟩
      · rw [entryFields?_empty] at hfields
        cases hfields

/-- Where every right entry of a document describes its fields, the cache answers these fields, and
only right entries are added to it. -/
theorem discover_eq (hc : cache.Entries right)
    (hright : ∀ rs, (Field.discover d d.root).mapM (FieldRecord.ofField? d) = some rs →
      right (fingerprint source) (entryText rs))
    (hread : ∀ text found, right (fingerprint source) text → entryFields? d text = some found →
      found = Field.discover d d.root) :
    (cache.discover source d).1 = Field.discover d d.root ∧
      (cache.discover source d).2.Entries right := by
  have hkey := noSlash_fingerprint source
  obtain ⟨-, hentries, hfound⟩ := load_eq (d := d) hkey hc
  rw [discover]
  split
  next found left hload =>
    rw [hload] at hentries hfound
    obtain ⟨text, htext, hfields⟩ := hfound found rfl
    exact ⟨hread text found htext hfields, hentries⟩
  next left hload =>
    rw [hload] at hentries
    obtain ⟨hfolder, hgains⟩ := gains_store left hkey hright
    refine ⟨rfl, ?_⟩
    have hstored := hentries.gains hgains
    rwa [← hfolder] at hstored

end FieldCache

end MailMerge
