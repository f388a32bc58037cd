import MailMerge.MergeError

/-!
# Numbering of lists

Each list gets a definition of its own, whose number is one above all numbers in use, so that lists
made at different places of a merge never continue one another. Numbers have 32 bits.
-/

namespace MailMerge

/-- A numbering definition made for one list. -/
structure Definition where
  number : Nat
  style : String
deriving DecidableEq, Repr, Inhabited

/-- The definitions made so far, in order, and the highest number that the template itself uses. -/
structure Numbering where
  reserved : Nat := 0
  definitions : List Definition := []
deriving DecidableEq, Repr, Inhabited

namespace Numbering

/-- Nothing is defined; the given numbers are in use. -/
def ofReserved (numbers : List Nat) : Numbering := ⟨numbers.foldl max 0, []⟩

/-- The highest number in use. -/
def highest (numbering : Numbering) : Nat :=
  (numbering.definitions.map Definition.number).foldl max numbering.reserved

/-- The number after the greatest one that a list can have. -/
def endOfNumbers : Nat := 0x100000000

/-- Makes a definition for a new list, as long as there is a number for it. -/
def register? (numbering : Numbering) (style : String) : Option (Definition × Numbering) :=
  if numbering.highest + 1 < endOfNumbers then
    let definition := ⟨numbering.highest + 1, style⟩
    some (definition, { numbering with definitions := numbering.definitions ++ [definition] })
  else none

/-- Makes a definition for a new list. -/
def register (style : String) : EStateM MergeError Numbering Definition := fun numbering =>
  match numbering.register? style with
  | some (definition, numbering) => .ok definition numbering
  | none => .error .overflow numbering

/-- Forgets all definitions; reserved numbers stay reserved. -/
def reset (numbering : Numbering) : Numbering := { numbering with definitions := [] }

end Numbering

end MailMerge
