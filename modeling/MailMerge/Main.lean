import MailMerge.Command.Execution

/-!
# The program

The outer layer: it takes the command line and the file system as they are, and prints what a
command answers. A command line that cannot be understood ends the program with code 2, and a
failure with a code of its own.
-/

namespace MailMerge

/-- The fault behind a failed file operation. -/
def FileFault.ofError : IO.Error → FileFault
  | .noFileOrDirectory _ _ _ => missing
  | .inappropriateType _ code _ => if code = 21 then isAFolder else notAFolder
  | .invalidArgument _ 36 _ => nameTooLong
  | .resourceExhausted _ 28 _ => noSpace
  | .permissionDenied _ _ _ => other "Permission denied (os error 13)"
  | e => other (toString e)

/-- The answer of a file operation. -/
def answered {α : Type} (step : IO α) : IO (Except FileFault α) := do
  try return .ok (← step) catch e => return .error (.ofError e)

/-- The text of a file of a folder, if it is there. -/
def textIn? (folder name : String) : IO (Option String) := do
  try return some (← IO.FS.readFile (FileTree.within folder name)) catch _ => return none

/-- The cache in a folder, as far as the entry of a key is concerned. -/
def openCacheOf (folder key : String) : IO FieldCache := do
  let cache := FieldCache.empty
  try
    let path ← IO.FS.realPath (if folder.isEmpty then "." else folder)
    if ← path.isDir then
      let mut files := (cache.files.makeFolders cache.folder).2
      for name in [FieldCache.entryName key, FieldCache.lockName key] do
        if let some text ← textIn? folder name then
          files := (files.write (cache.path name) text).toOption.getD files
      return { cache with files }
    else if ← path.pathExists then
      return { cache with files := (cache.files.write cache.folder "").toOption.getD cache.files }
    else return cache
  catch _ => return cache

/-- Writes the files of a cache, each under another name first, so that nobody reads half a file. -/
def keepCacheOf (folder : String) (cache : FieldCache) : IO Unit := do
  try
    for name in cache.names do
      if let .ok text := cache.files.read (cache.path name) then
        IO.FS.createDirAll (if folder.isEmpty then "." else folder)
        let path := FileTree.within folder name
        IO.FS.writeFile (path ++ ".new") text
        IO.FS.rename (path ++ ".new") path
  catch e => IO.eprintln s!"Failed to write field cache entry: {e}"

/-- The file system of the machine. -/
def FileAccess.machine : FileAccess IO where
  read path := answered (IO.FS.readFile path)
  write path text := answered (IO.FS.writeFile path text)
  openCache := openCacheOf
  keepCache := keepCacheOf

/-- Prints a failure with its causes. -/
def printFailure (failure : CommandFailure) : IO Unit := do
  IO.eprintln ("Error: " ++ failure.message)
  unless failure.causes.isEmpty do
    IO.eprintln "\nCaused by:"
    for cause in failure.causes do
      IO.eprintln ("    " ++ cause)

end MailMerge

open MailMerge in
/-- Executes the command of the command line. -/
def main (arguments : List String) : IO UInt32 := do
  match Command.parse arguments with
  | .error .version =>
    IO.println Command.versionText
    return 0
  | .error .help =>
    IO.println Command.usageText
    return 0
  | .error .faulty =>
    IO.eprintln Command.usageText
    return 2
  | .ok command =>
    match ← (Command.execute FileAccess.machine command).run with
    | .ok text =>
      IO.print text
      return 0
    | .error failure =>
      printFailure failure
      return failure.code.toUInt32
