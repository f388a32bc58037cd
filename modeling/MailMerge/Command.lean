import MailMerge.Decimal.Literal
import MailMerge.Options

/-!
# The command line

There are two commands: one renders a part, the other lists its fields. Options are given by their
long names, some of them also by a letter; a value follows its option, or an equals sign.
-/

namespace MailMerge

/-- What the command that renders a part is given. -/
structure RenderArguments where
  input : String
  context? : Option String := none
  output? : Option String := none
  settings? : Option String := none
  options : Options := {}
  isHeaderFooter : Bool := false
deriving DecidableEq, Repr

/-- What the command that lists fields is given. -/
structure FieldsArguments where
  input : String
  asJson : Bool := false
  cacheFolder? : Option String := none
deriving DecidableEq, Repr

/-- A command. -/
inductive Command where
  /-- Renders a part. -/
  | render (arguments : RenderArguments)
  /-- Lists the fields of a part. -/
  | fields (arguments : FieldsArguments)
deriving DecidableEq, Repr

/-- What a command line asks for, if not for a command. -/
inductive Usage where
  /-- It cannot be understood. -/
  | faulty
  /-- It asks for help. -/
  | help
  /-- It asks for the version. -/
  | version
deriving DecidableEq, Repr

namespace Command

/-! ## Options and values -/

/-- What may be given to an option. -/
inductive OptionValue where
  /-- Nothing. -/
  | nothing
  /-- A path, which is not empty. -/
  | path
  /-- A page number. -/
  | page
deriving DecidableEq, Repr

/-- An option of a command. -/
structure OptionForm where
  name : String
  letter? : Option Char := none
  value : OptionValue
deriving DecidableEq, Repr

/-- The options of the command that renders a part. -/
def renderForms : List OptionForm :=
  [⟨"context", some 'c', .path⟩, ⟨"output", some 'o', .path⟩, ⟨"config", none, .path⟩,
    ⟨"cache-dir", none, .path⟩, ⟨"start-page-number", none, .page⟩,
    ⟨"header-footer", none, .nothing⟩]

/-- The options of the command that lists fields. -/
def fieldsForms : List OptionForm := [⟨"json", none, .nothing⟩, ⟨"cache-dir", none, .path⟩]

/-- What has been given so far: the input, and the options with their values. -/
structure Given where
  input? : Option String := none
  options : List (String × String) := []

/-- The page number that a text stands for. -/
def pageOf? (s : String) : Option Nat := (Decimal.integer? s.toList).bind Options.page?

/-- A text may be the value of an option. -/
def OptionValue.admits (s : String) : OptionValue → Bool
  | nothing => s.isEmpty
  | path => !s.isEmpty
  | page => (pageOf? s).isSome

/-- Takes a positional argument, of which there is one. -/
def Given.takeInput (given : Given) (s : String) : Except Usage Given :=
  if given.input?.isSome || s.isEmpty then .error .faulty
  else .ok { given with input? := some s }

/-- Takes an option, which may be given once. -/
def Given.takeOption (given : Given) (form : OptionForm) (value : String) : Except Usage Given :=
  if given.options.any (·.1 == form.name) || !form.value.admits value then .error .faulty
  else .ok { given with options := given.options ++ [(form.name, value)] }

/-- An argument that begins like an option is no value. -/
def isValue (s : String) : Bool := s = "-" || s.toList.head? ≠ some '-'

/-- What an argument is. -/
inductive Role where
  /-- A positional argument. -/
  | positional
  /-- An option, with the value that is attached to it. -/
  | option (form : OptionForm) (attached? : Option String)
  /-- The end of the options. -/
  | endOfOptions

/-- An option with its attached value; only options that have a value may have one. -/
def mention (form : OptionForm) (attached? : Option String) : Except Usage Role :=
  if form.value = .nothing ∧ attached?.isSome then .error .faulty
  else .ok (.option form attached?)

/-- Reads the long name of an option, and the value after an equals sign. -/
def longRole (forms : List OptionForm) (cs : List Char) : Except Usage Role :=
  let name := String.ofList (cs.takeWhile (· ≠ '='))
  let attached? :=
    match cs.dropWhile (· ≠ '=') with
    | _ :: value => some (String.ofList value)
    | [] => none
  match forms.find? (·.name == name) with
  | some form => mention form attached?
  | none => .error (if name = "help" ∧ attached? = none then .help else .faulty)

/-- Reads the letter of an option, and the value after it. -/
def letterRole (forms : List OptionForm) (letter : Char) (cs : List Char) : Except Usage Role :=
  let attached? :=
    match cs with
    | [] => none
    | '=' :: value => some (String.ofList value)
    | value => some (String.ofList value)
  match forms.find? (·.letter? == some letter) with
  | some form => mention form attached?
  | none => .error (if letter = 'h' then .help else .faulty)

/-- Reads an argument. A hyphen alone is positional. -/
def role (forms : List OptionForm) (argument : String) : Except Usage Role :=
  match argument.toList with
  | ['-', '-'] => .ok .endOfOptions
  | '-' :: '-' :: name => longRole forms name
  | '-' :: letter :: more => letterRole forms letter more
  | _ => .ok .positional

/-- Reads the arguments of a command. After the end of the options all arguments are positional. -/
def collect (forms : List OptionForm) (given : Given) : List String → Except Usage Given
  | [] => .ok given
  | argument :: rest => do
    match ← role forms argument with
    | .endOfOptions => rest.foldlM Given.takeInput given
    | .positional => collect forms (← given.takeInput argument) rest
    | .option form (some value) => collect forms (← given.takeOption form value) rest
    | .option form none =>
      if form.value = .nothing then collect forms (← given.takeOption form "") rest
      else
        match rest with
        | [] => throw .faulty
        | value :: rest =>
          if isValue value then collect forms (← given.takeOption form value) rest
          else throw .faulty

namespace Given

/-- The value of an option. -/
def value? (given : Given) (name : String) : Option String :=
  (given.options.find? (·.1 == name)).map Prod.snd

/-- An option has been given. -/
def has (given : Given) (name : String) : Bool := (given.value? name).isSome

/-- The command that renders a part. -/
def toRender (given : Given) : Except Usage Command :=
  match given.input? with
  | none => .error .faulty
  | some input =>
    .ok <| .render
      { input
        context? := given.value? "context"
        output? := given.value? "output"
        settings? := given.value? "config"
        options := ⟨given.value? "cache-dir", (given.value? "start-page-number").bind pageOf?⟩
        isHeaderFooter := given.has "header-footer" }

/-- The command that lists fields. -/
def toFields (given : Given) : Except Usage Command :=
  match given.input? with
  | none => .error .faulty
  | some input =>
    .ok (.fields { input, asJson := given.has "json", cacheFolder? := given.value? "cache-dir" })

end Given

/-- The name of the program. -/
def programName : String := "wordmerge"

/-- How the program is used. -/
def usageText : String :=
  "Usage: " ++ programName ++ " render [OPTIONS] <INPUT>\n" ++
    "       " ++ programName ++ " fields [--json] [--cache-dir <DIR>] <INPUT>\n\n" ++
    "Options of render:\n" ++
    "  -c, --context <FILE>           data for the part, a JSON object\n" ++
    "  -o, --output <FILE>            where the result is written\n" ++
    "      --config <FILE>            settings\n" ++
    "      --cache-dir <DIR>          folder for the cache of fields\n" ++
    "      --start-page-number <N>    first page number\n" ++
    "      --header-footer            the part is a header or a footer"

/-- Reads a command line. -/
def parse (arguments : List String) : Except Usage Command :=
  match arguments with
  | "render" :: rest => collect renderForms {} rest >>= Given.toRender
  | "fields" :: rest => collect fieldsForms {} rest >>= Given.toFields
  | [] | "--" :: _ => .error .faulty
  | first :: rest =>
    match first.toList with
    | '-' :: 'h' :: _ => .error .help
    | '-' :: 'V' :: _ => .error .version
    | _ =>
      if first = "--version" then .error .version
      else if first = "--help" then .error .help
      else if first = "help" ∧ rest.all (["render", "fields", "help"].contains ·) then .error .help
      else .error .faulty

end Command

end MailMerge
