import MailMerge.Json.Basic

/-!
# Records in JSON

A record with fixed member names is written as an object, or as the array of the members in their
order. An object may not have a member of the record twice.
-/

namespace MailMerge.Json

/-- Whether an object may have members that the record does not know. -/
inductive Strangers where
  /-- They are ignored. -/
  | ignored
  /-- They are refused. -/
  | refused
deriving DecidableEq, Repr

/-- The values of the named members, each of which may be missing. -/
def record? (strangers : Strangers) (names : List String) : Json → Option (List (Option Json))
  | object members =>
    let isKnown (member : String × Json) : Bool := names.contains member.1
    if strangers = .refused && !members.all isKnown then none
    else
      names.mapM fun name =>
        match members.filter (·.1 == name) with
        | [] => some none
        | [(_, value)] => some (some value)
        | _ => none
  | array items =>
    if items.length ≤ names.length then
      some (items.map some ++ List.replicate (names.length - items.length) none)
    else none
  | _ => none

end MailMerge.Json
