import MailMerge.FileFault

/-!
# Trees of files

Files and folders in memory, with the paths that lead to them. A path goes from folder to folder:
a part that is empty or a dot stays, two dots go to the folder around, and any other part goes to
what has that name. All on the way has to be there, and to be a folder.
-/

namespace MailMerge

/-- What a device does with a text that is written to it. It has no text to be read. -/
inductive Device where
  /-- It forgets the text. -/
  | sink
  /-- It has no space for it. -/
  | full
  /-- It shows it. -/
  | terminal
deriving DecidableEq, Repr

/-- What can stand at a place. -/
inductive FileItem where
  | file (text : String)
  | folder
  | device (device : Device)
deriving DecidableEq, Repr

/-- It is a folder. -/
def FileItem.isFolder : FileItem → Bool
  | folder => true
  | _ => false

/-- Files and folders, by the names on the way to them from the outermost folder. -/
structure FileTree where
  /-- The folder from which paths start. -/
  home : List String
  items : List (List String × FileItem)
  /-- What was shown. -/
  shown : String := ""
deriving Repr

namespace FileTree

/-- What stands at a place. The outermost folder is always there. -/
def item? (tree : FileTree) (place : List String) : Option FileItem :=
  if place.isEmpty then some .folder else (tree.items.find? (·.1 == place)).map Prod.snd

/-- Puts something at a place. -/
def put (tree : FileTree) (place : List String) (item : FileItem) : FileTree :=
  { tree with items := (place, item) :: tree.items.filter (·.1 ≠ place) }

/-- After something is put at a place it is there, and all else is as it was. -/
theorem item?_put (tree : FileTree) (place wanted : List String) (item : FileItem)
    (h : wanted ≠ []) :
    (tree.put place item).item? wanted =
      if place = wanted then some item else tree.item? wanted := by
  have he : wanted.isEmpty = false := by cases wanted <;> simp_all
  by_cases hp : place = wanted
  · simp [item?, put, he, hp]
  · have hb : (place == wanted) = false := by simpa using hp
    simp only [item?, put, he, List.find?_cons, hb, hp, if_false, Bool.false_eq_true,
      List.find?_filter]
    congr 2
    funext entry
    by_cases hw : entry.1 = wanted
    · simp [hw, Ne.symm hp]
    · simp [hw]

/-! ## Paths -/

/-- A name of a file has at most this many bytes. -/
def longestName : Nat := 255

/-- A path has at most this many bytes. -/
def longestPath : Nat := 4095

/-- The parts of a path. -/
def parts (cs : List Char) : List String := (cs.splitOn '/').map String.ofList

/-- The part of a path stays in its folder. -/
def stays (part : String) : Bool := part = "" || part = "."

/-- Follows the parts of a path from a place; all on the way has to be a folder. -/
def follow (tree : FileTree) (place : List String) : List String → Except FileFault (List String)
  | [] => .ok place
  | part :: rest =>
    match tree.item? place with
    | none => .error .missing
    | some .folder =>
      if stays part then follow tree place rest
      else if part = ".." then follow tree place.dropLast rest
      else if longestName < part.utf8ByteSize then .error .nameTooLong
      else follow tree (place ++ [part]) rest
    | some _ => .error .notAFolder

/-- The folder from which a path starts: the outermost one if it begins with a slash. -/
def start (tree : FileTree) (cs : List Char) : List String :=
  if cs.head? = some '/' then [] else tree.home

/-- The place that a path leads to. Something else than a folder need not be there yet. -/
def place (tree : FileTree) (path : String) : Except FileFault (List String) :=
  let cs := path.toList
  if cs.contains '\x00' then .error .badName
  else if cs.isEmpty then .error .missing
  else if longestPath < path.utf8ByteSize then .error .nameTooLong
  else tree.follow (tree.start cs) (parts cs)

/-- The path of something in a folder. A path that begins with a slash is not taken from there. -/
def within (folder path : String) : String :=
  if folder.isEmpty || path.toList.head? = some '/' then path else folder ++ "/" ++ path

/-! ## Reading and writing -/

/-- What a path leads to. -/
def find? (path : String) (tree : FileTree) : Option FileItem :=
  match tree.place path with
  | .ok place => tree.item? place
  | .error _ => none

/-- Reads a file. -/
def read (path : String) (tree : FileTree) : Except FileFault String := do
  let place ← tree.place path
  match tree.item? place with
  | none => .error .missing
  | some .folder => .error .isAFolder
  | some (.file text) => .ok text
  | some (.device _) => .ok ""

/-- Drops the slashes at the end of a path. -/
def dropSlashes (cs : List Char) : List Char := (cs.reverse.dropWhile (· = '/')).reverse

/-- The place where a file is to be written, which must be in a folder. A path with a slash at its
end is that of a folder. -/
def target (tree : FileTree) (path : String) : Except FileFault (List String) := do
  let place ←
    if path.toList.getLast? = some '/' then do
      let outer := (parts (dropSlashes path.toList)).dropLast ++ ["."]
      let _ ← tree.follow (tree.start path.toList) outer
      .error .isAFolder
    else tree.place path
  if (tree.item? place).any FileItem.isFolder then .error .isAFolder else .ok place

/-- Writes a file. -/
def write (path text : String) (tree : FileTree) : Except FileFault FileTree := do
  let place ← tree.target path
  match tree.item? place with
  | some (.device .sink) => .ok tree
  | some (.device .full) => if text.isEmpty then .ok tree else .error .noSpace
  | some (.device .terminal) => .ok { tree with shown := tree.shown ++ text }
  | _ => .ok (tree.put place (.file text))

/-- Makes an empty file if nothing is there yet. -/
def touch (path : String) (tree : FileTree) : Except FileFault FileTree := do
  let place ← tree.target path
  match tree.item? place with
  | none => .ok (tree.put place (.file ""))
  | some _ => .ok tree

/-- Makes the folders on the way from a place that are not there yet. Those that are made stay also
when there is a fault later on. -/
def makeFrom (tree : FileTree) (place : List String) :
    List String → Except FileFault Unit × FileTree
  | [] => (.ok (), tree)
  | part :: rest =>
    if stays part then makeFrom tree place rest
    else if part = ".." then makeFrom tree place.dropLast rest
    else if longestName < part.utf8ByteSize then (.error .nameTooLong, tree)
    else
      let inner := place ++ [part]
      match tree.item? inner with
      | some .folder => makeFrom tree inner rest
      | some _ => (.error (if rest.all stays then .taken else .notAFolder), tree)
      | none => makeFrom (tree.put inner .folder) inner rest

/-- Makes a folder and all on the way to it, as far as they are not there yet. The empty path is
that of the folder from which paths start. -/
def makeFolders (path : String) (tree : FileTree) : Except FileFault Unit × FileTree :=
  let cs := path.toList
  if cs.contains '\x00' then (.error .badName, tree)
  else if longestPath < path.utf8ByteSize then (.error .nameTooLong, tree)
  else tree.makeFrom (tree.start cs) (parts cs)

/-- The names of what stands directly in a folder. -/
def names (path : String) (tree : FileTree) : List String :=
  match tree.place path with
  | .error _ => []
  | .ok folder =>
    tree.items.filterMap fun (place, _) =>
      if place.dropLast = folder then place.getLast? else none

/-! ## New trees -/

/-- The outermost folders. -/
def outermost : List String :=
  ["bin", "dev", "etc", "home", "lib", "opt", "proc", "root", "sbin", "sys", "tmp", "usr", "var"]

/-- The devices. -/
def devices : List (List String × FileItem) :=
  [(["dev", "null"], .device .sink), (["dev", "full"], .device .full),
    (["dev", "stdin"], .device .sink), (["dev", "stdout"], .device .terminal),
    (["dev", "stderr"], .device .sink)]

/-- A tree in which nothing but folders and devices is yet. -/
def empty : FileTree where
  home := ["tmp", "work"]
  items := devices ++ outermost.map (fun name => ([name], .folder)) ++ [(["tmp", "work"], .folder)]

/-- A tree with the given files, and the folders that they are in. -/
def ofFiles (files : List (String × String)) : FileTree :=
  files.foldl (fun tree (path, text) =>
    let names := parts path.toList
    let tree := (tree.makeFrom tree.home names.dropLast).2
    tree.put (tree.home ++ names) (.file text)) empty

end FileTree

end MailMerge
