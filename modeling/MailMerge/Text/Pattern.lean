/-!
# Patterns

A pattern is a sequence of fixed words and of runs of characters of a class. Runs are as long as the
rest of the pattern permits, earlier ones first; some runs are kept. A text matches as a whole.

What a pattern finds is said by `matchParts?`, which may look at one end of a text many times. So
`match?` looks once at each end for each part, the last part first. Main statement: `match?_eq` says
that it finds the same.
-/

namespace MailMerge.Text

/-- A part of a pattern. -/
inductive Part where
  /-- A fixed word. -/
  | word (cs : List Char)
  /-- A run of characters of a class, which may be empty if `optional` holds, and which is kept if
  `kept` holds. -/
  | run (kept optional : Bool) (member : Char → Bool)

namespace Part

/-- The given word. -/
def exactly (s : String) : Part := word s.toList

/-- One or more characters of a class, kept. -/
def keep (member : Char → Bool) : Part := run true false member

/-- Any number of characters of a class, kept. -/
def keepAny (member : Char → Bool) : Part := run true true member

/-- One or more characters of a class. -/
def some (member : Char → Bool) : Part := run false false member

/-- Any number of characters of a class. -/
def any (member : Char → Bool) : Part := run false true member

end Part

/-! ## What a pattern finds -/

variable {α β : Type}

/-- The run before what was found at its end grows by a character in front. -/
def extendRun (c : Char) : List Char × α → List Char × α
  | (run, found) => (c :: run, found)

/-- The longest run of at least one character after which `next` finds something. -/
def run? (member : Char → Bool) (next : List Char → Option α) :
    List Char → Option (List Char × α)
  | [] => none
  | c :: cs =>
    if member c then ((run? member next cs).or ((next cs).map ([], ·))).map (extendRun c) else none

/-- What is found after a run, with the run in front if it is kept. -/
def keepRun (kept : Bool) : List Char × List (List Char) → List (List Char)
  | (run, found) => if kept then run :: found else found

/-- Matches a text as a whole. Answers the kept runs in order. -/
def matchParts? : List Part → List Char → Option (List (List Char))
  | [], cs => if cs.isEmpty then some [] else none
  | .word w :: rest, cs =>
    if w.isPrefixOf cs then matchParts? rest (cs.drop w.length) else none
  | .run kept optional member :: rest, cs =>
    let run := run? member (matchParts? rest) cs
    (if optional then run.or ((matchParts? rest cs).map ([], ·)) else run).map (keepRun kept)

/-! ## All ends of a text at once -/

/-- The ends of a text, from the whole text to the empty one. -/
def ends : List Char → List (List Char)
  | [] => [[]]
  | c :: cs => (c :: cs) :: ends cs

/-- An answer for each end of a text, from the end and the answers of the next part to it and to the
shorter ends. -/
def atEnds (answer : List Char → List (Option α) → Option β) :
    List Char → List (Option α) → List (Option β)
  | [], later => [answer [] later]
  | c :: cs, later => answer (c :: cs) later :: atEnds answer cs later.tail

/-- The longest run in front of each end of a text, from the answers of the next part. -/
def runsAtEnds (member : Char → Bool) : List Char → List (Option α) → List (Option (List Char × α))
  | [], _ => [none]
  | c :: cs, later =>
    let longer := runsAtEnds member cs later.tail
    let run :=
      if member c then
        (longer.head?.join.or (later.tail.head?.join.map ([], ·))).map (extendRun c)
      else none
    run :: longer

/-- Matches each end of a text as a whole. -/
def matchEnds : List Part → List Char → List (Option (List (List Char)))
  | [], cs => (ends cs).map fun cs => if cs.isEmpty then some [] else none
  | .word w :: rest, cs =>
    atEnds (fun cs later => if w.isPrefixOf cs then later[w.length]?.join else none) cs
      (matchEnds rest cs)
  | .run kept optional member :: rest, cs =>
    let later := matchEnds rest cs
    let runs := runsAtEnds member cs later
    (if optional then List.zipWith (fun run found => run.or (found.map ([], ·))) runs later
      else runs).map (·.map (keepRun kept))

/-- Matches a text as a whole. Answers the kept runs in order. -/
def match? (parts : List Part) (s : String) : Option (List String) :=
  (matchEnds parts s.toList).head?.join.map (·.map String.ofList)

/-! ## The two agree -/

theorem head?_ends (cs : List Char) : (ends cs).head? = some cs := by
  cases cs <;> rfl

/-- The ends are what is left after so many characters. -/
theorem getElem?_ends (cs : List Char) (n : Nat) :
    (ends cs)[n]? = if n ≤ cs.length then some (cs.drop n) else none := by
  induction cs generalizing n with
  | nil => cases n <;> simp [ends]
  | cons c cs ih => cases n <;> simp [ends, ih]

theorem atEnds_map (answer : List Char → List (Option α) → Option β)
    (next : List Char → Option α) (cs : List Char) :
    atEnds answer cs ((ends cs).map next) =
      (ends cs).map fun cs => answer cs ((ends cs).map next) := by
  induction cs with
  | nil => rfl
  | cons c cs ih => simp [atEnds, ends, ih]

theorem runsAtEnds_map (member : Char → Bool) (next : List Char → Option α) (cs : List Char) :
    runsAtEnds member cs ((ends cs).map next) = (ends cs).map (run? member next) := by
  induction cs with
  | nil => rfl
  | cons c cs ih => simp [runsAtEnds, ends, ih, run?, head?_ends]

/-- A word at the front of a text leaves an end of it. -/
theorem getElem?_of_isPrefixOf {w cs : List Char} (next : List Char → Option α)
    (h : w.isPrefixOf cs = true) :
    ((ends cs).map next)[w.length]?.join = next (cs.drop w.length) := by
  have hlength := (List.isPrefixOf_iff_prefix.1 h).length_le
  simp [getElem?_ends, hlength]

/-- The answers for all ends are the answers for each of them. -/
theorem matchEnds_eq (parts : List Part) (cs : List Char) :
    matchEnds parts cs = (ends cs).map (matchParts? parts) := by
  induction parts generalizing cs with
  | nil => rfl
  | cons part rest ih =>
    cases part with
    | word w =>
      rw [matchEnds, ih, atEnds_map]
      refine List.map_congr_left fun e _ => ?_
      by_cases h : w.isPrefixOf e = true
      · rw [if_pos h, getElem?_of_isPrefixOf _ h, matchParts?, if_pos h]
      · rw [if_neg h, matchParts?, if_neg h]
    | run kept optional member =>
      simp only [matchEnds, ih, runsAtEnds_map]
      cases optional <;> simp [matchParts?, Function.comp_def, List.zipWith_map, List.zipWith_self]

/-- A text is matched as its characters are. -/
theorem match?_eq (parts : List Part) (s : String) :
    match? parts s = (matchParts? parts s.toList).map (·.map String.ofList) := by
  simp [match?, matchEnds_eq, head?_ends]

end MailMerge.Text
