import MailMerge.Json.Shape
import MailMerge.Toml.Reader

/-!
# Options

The options of rendering: a folder for the cache of fields, and the first page number. Both may be
missing, and nothing else is an option.
-/

namespace MailMerge

/-- The options of rendering. -/
structure Options where
  cacheFolder? : Option String := none
  startPage? : Option Nat := none
deriving DecidableEq, Repr

namespace Options

/-- The names of the options. -/
def names : List String := ["cache-dir", "start-page-number"]

/-- Page numbers are unsigned numbers of 32 bits. -/
def page? (n : Int) : Option Nat := if 0 ≤ n ∧ n < 0x100000000 then some n.toNat else none

/-- Reads the folder of the cache, if one is given. -/
def folderOfJson? : Option Json → Option (Option String)
  | none | some .null => some none
  | some (.string s) => some (some s)
  | _ => none

/-- Reads the first page number, if one is given. -/
def pageOfJson? : Option Json → Option (Option Nat)
  | none | some .null => some none
  | some (.integer n) => (page? n).map some
  | _ => none

/-- Reads options. -/
def ofJson? (data : Json) : Option Options :=
  match data.record? .refused names with
  | some [folder, page] => do
    return ⟨← folderOfJson? folder, ← pageOfJson? page⟩
  | _ => none

/-- The setting of the given name, if there is one; two are refused. -/
def settingOf? (name : String) (settings : List (String × Toml.Setting)) :
    Option (Option Toml.Setting) :=
  match settings.filter (·.1 == name) with
  | [] => some none
  | [(_, setting)] => some (some setting)
  | _ => none

/-- The options that settings give. -/
def ofSettings? (settings : List (String × Toml.Setting)) : Option Options := do
  if settings.all (names.contains ·.1) then
    let cacheFolder? ←
      match ← settingOf? "cache-dir" settings with
      | none => some none
      | some (.text s) => some (some s)
      | some (.integer _) => none
    let startPage? ←
      match ← settingOf? "start-page-number" settings with
      | none => some none
      | some (.integer n) => (page? n).map some
      | some (.text _) => none
    return { cacheFolder?, startPage? }
  else none

/-- The written form of options. -/
def toJson (options : Options) : Json :=
  .object
    [("cache-dir", (options.cacheFolder?.map Json.string).getD .null),
      ("start-page-number", (options.startPage?.map fun n => Json.integer n).getD .null)]

end Options

end MailMerge
