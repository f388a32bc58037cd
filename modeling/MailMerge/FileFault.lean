/-!
# Faults of the file system

Why a file cannot be read or written, in the wording of the operating system.
-/

namespace MailMerge

/-- Why a file cannot be read or written. -/
inductive FileFault where
  /-- There is no such file. -/
  | missing
  /-- A file stands where a folder should be made. -/
  | taken
  /-- A file stands where a folder should be. -/
  | notAFolder
  /-- A folder stands where a file should be. -/
  | isAFolder
  /-- A name in the path, or all of it, is too long. -/
  | nameTooLong
  /-- The path has a character that no path can have. -/
  | badName
  /-- There is no space left. -/
  | noSpace
  /-- Another reason. -/
  | other (reason : String)
deriving DecidableEq, Repr

/-- The wording of a fault. -/
def FileFault.message : FileFault → String
  | missing => "No such file or directory (os error 2)"
  | taken => "File exists (os error 17)"
  | notAFolder => "Not a directory (os error 20)"
  | isAFolder => "Is a directory (os error 21)"
  | nameTooLong => "File name too long (os error 36)"
  | badName => "file name contained an unexpected NUL byte"
  | noSpace => "No space left on device (os error 28)"
  | other reason => reason

end MailMerge
