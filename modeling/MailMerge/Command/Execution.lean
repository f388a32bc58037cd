import MailMerge.Command
import MailMerge.Json.Reader
import MailMerge.Part

/-!
# Execution of commands

A command reads and writes files, and may use a folder as a cache; a tree of files provides that. It
answers the text that it prints, or fails with a message and the causes below it. Only data can come
from the command line: there are no callables, images or markup in its contexts.
-/

namespace MailMerge

open Xml

/-- What a command does with files. The cache in a folder is seen as far as one key is concerned. -/
structure FileAccess (m : Type → Type) where
  read : String → m (Except FileFault String)
  write : String → String → m (Except FileFault Unit)
  openCache : String → String → m FieldCache
  keepCache : String → FieldCache → m Unit

/-- A tree of files as a file system. -/
def FileTree.access : FileAccess (StateM FileTree) where
  read path := return (← get).read path
  write path text := do
    match (← get).write path text with
    | .ok tree => set tree; return .ok ()
    | .error fault => return .error fault
  openCache folder _ := return ⟨folder, ← get⟩
  keepCache _ cache := set cache.files

/-- Why a command fails. -/
inductive CommandFailure where
  /-- The part cannot be read. -/
  | input (path : String) (fault : FileFault)
  /-- The settings file cannot be read. -/
  | settingsFile (path : String) (fault : FileFault)
  /-- The settings are no options. -/
  | settings (path : String)
  /-- The context cannot be read. -/
  | contextFile (path : String) (fault : FileFault)
  /-- The context is no JSON. -/
  | contextData (path : String)
  /-- The data are no context. -/
  | context (path : String) (cause : MergeError)
  /-- The part is no document. -/
  | markup (path : String) (cause : MergeError)
  /-- Rendering fails. -/
  | rendering (path : String) (cause : MergeError)
  /-- The result cannot be written. -/
  | output (path : String) (fault : FileFault)
deriving DecidableEq, Repr

namespace CommandFailure

/-- The wording of a failure. -/
def message : CommandFailure → String
  | input path _ => "Failed to read " ++ path
  | settingsFile path _ => "Failed to read config file " ++ path
  | settings path => "Invalid config file " ++ path
  | contextFile path _ => "Failed to read context file " ++ path
  | contextData path => "Invalid JSON in " ++ path
  | context path _ => "Invalid context in " ++ path
  | markup path _ => "Failed to parse " ++ path
  | rendering path _ => "Failed to render " ++ path
  | output path _ => "Failed to write " ++ path

/-- The wordings of what a failure comes from, the nearest first. -/
def causes : CommandFailure → List String
  | input _ fault | settingsFile _ fault | contextFile _ fault | output _ fault => [fault.message]
  | settings _ | contextData _ => []
  | context _ cause | markup _ cause | rendering _ cause => cause.causes

/-- The code with which a failure ends the program. -/
def code : CommandFailure → Nat
  | rendering _ cause => if cause.endsProgram then 101 else 1
  | _ => 1

end CommandFailure

namespace Command

/-- A step of a command. -/
abbrev Execution (m : Type → Type) := ExceptT CommandFailure m

/-- The version of the program. -/
def versionText : String := programName ++ " " ++ engineVersion

variable {m : Type → Type} [Monad m]

/-- Turns an answer into a step. -/
def orFail {ε α : Type} (failure : ε → CommandFailure) (answer : m (Except ε α)) :
    Execution m α := do
  match ← answer with
  | .ok a => return a
  | .error e => throw (failure e)

/-- The options of a settings file; those of the command line come before them. -/
def loadOptions (files : FileAccess m) (arguments : RenderArguments) : Execution m Options := do
  let settings ←
    match arguments.settings? with
    | none => pure {}
    | some path => do
      let text ← orFail (.settingsFile path) (files.read path)
      match (Toml.parse? text).bind Options.ofSettings? with
      | some options => pure options
      | none => throw (.settings path)
  return {
    cacheFolder? := arguments.options.cacheFolder?.or settings.cacheFolder?
    startPage? := arguments.options.startPage?.or settings.startPage? }

/-- The context in a file; without a file it is empty. -/
def loadContext (files : FileAccess m) (path? : Option String) : Execution m Context :=
  match path? with
  | none => return {}
  | some path => do
    let text ← orFail (.contextFile path) (files.read path)
    match Json.parse? text with
    | none => throw (.contextData path)
    | some data => orFail (.context path) (pure (Context.ofJson data))

/-- Reads a part from a file. Answers its text, too. -/
def loadPart (files : FileAccess m) (kind : PartKind) (path : String) :
    Execution m (String × Part) := do
  let text ← orFail (.input path) (files.read path)
  let part ← orFail (.markup path) (pure (Part.parse kind text))
  return (text, part)

/-- Opens the cache for a text, if there is a folder for it. -/
def openCache (files : FileAccess m) (folder? : Option String) (text : String) :
    Execution m (Option FieldCache) :=
  match folder? with
  | none => return none
  | some folder => some <$> monadLift (files.openCache folder (FieldCache.fingerprint text))

/-- Keeps what was put into the cache. -/
def keepCache (files : FileAccess m) (folder? : Option String) (cache? : Option FieldCache) :
    Execution m Unit :=
  match folder?, cache? with
  | some folder, some cache => monadLift (files.keepCache folder cache)
  | _, _ => return ()

/-- Renders a part. -/
def renderPart (files : FileAccess m) (arguments : RenderArguments) : Execution m String := do
  let options ← loadOptions files arguments
  let context ← loadContext files arguments.context?
  let kind := if arguments.isHeaderFooter then .headerFooter else .document
  let (text, part) ← loadPart files kind arguments.input
  let session : Session := { part, cache? := ← openCache files options.cacheFolder? text }
  match Session.render {} context options.startPage? session with
  | .ok () done =>
    keepCache files options.cacheFolder? done.cache?
    return done.part.markup
  | .error e done =>
    keepCache files options.cacheFolder? done.cache?
    throw (.rendering arguments.input e)

/-- A text filled up with spaces. -/
def padded (width : Nat) (s : String) : String :=
  s ++ String.ofList (List.replicate (width - s.length) ' ')

/-- A line for a field: its kind and its directive. -/
def fieldLine (field : Field) : String :=
  padded 8 field.kind.label ++ " " ++ field.expression ++ "\n"

/-- A field as data. -/
def fieldJson (field : Field) : Json :=
  .object [("kind", .string field.kind.label), ("expression", .string field.expression)]

/-- The list of fields that is printed. -/
def listing (asJson : Bool) (fields : List Field) : String :=
  if asJson then (Json.array (fields.map fieldJson)).pretty ++ "\n"
  else String.join (fields.map fieldLine)

/-- Lists the fields of a part. -/
def listFields (files : FileAccess m) (arguments : FieldsArguments) : Execution m String := do
  let (text, part) ← loadPart files .document arguments.input
  let (found, cache?) := part.fields (← openCache files arguments.cacheFolder? text)
  keepCache files arguments.cacheFolder? cache?
  return listing arguments.asJson found

/-- Executes a command. Answers the text that it prints. -/
def execute (files : FileAccess m) : Command → Execution m String
  | .fields arguments => listFields files arguments
  | .render arguments => do
    let result ← renderPart files arguments
    match arguments.output? with
    | none => return result
    | some path =>
      orFail (.output path) (files.write path result)
      return ""

end Command

end MailMerge
