import MailMerge.Proofs.Argument.Literal
import MailMerge.Proofs.Value.Plain

/-!
# Lists of arguments

An argument of a call is written as a literal, as a text between single quotes or as a path after an
equals sign, and any blanks may stand around it. Main statement: a list of such arguments, parted by
commas, is read as their values in their order (`parse_listed`). Of literals alone it is read in every
context alike (`parse_written`).
-/

namespace MailMerge

/-- What can be written as an argument. -/
inductive Item where
  /-- A literal, where texts stand between double quotes. -/
  | literal (l : Literal)
  /-- A text between single quotes. -/
  | single (s : String)
  /-- A path, whose value is asked for. -/
  | path (p : String)
deriving DecidableEq, Repr

namespace Item

/-- An argument as it is written. -/
def text : Item → String
  | literal l => l.text
  | single s => "'" ++ s ++ "'"
  | path p => "=" ++ p

/-- What an argument stands for. Blanks around a path do not belong to it, and a path without a value
stands for null. -/
def value (context : Context) : Item → Except MergeError Value
  | literal l => .ok l.value
  | single s => .ok (.string s)
  | path p => (·.getD .null) <$> (Expression.parse (Text.trim p)).evaluate? context

/-- A text between quotes does not have that quote in it, and a path has no commas and quotes. -/
def isWritable : Item → Bool
  | literal l => l.isWritable
  | single s => !s.toList.contains '\''
  | path p => p.toList.all fun c => c ≠ ',' ∧ c ≠ '"' ∧ c ≠ '\''

end Item

/-- An argument with the blanks around it. -/
structure Listed where
  before : String
  item : Item
  after : String
deriving DecidableEq, Repr

namespace Listed

/-- An argument as it stands in a list. -/
def text (a : Listed) : String := a.before ++ a.item.text ++ a.after

/-- The argument can be written, and only blanks stand around it. -/
def isWritable (a : Listed) : Bool :=
  Text.allBlank a.before && a.item.isWritable && Text.allBlank a.after

/-- A list of arguments, parted by commas. -/
def written (list : List Listed) : String := ",".intercalate (list.map text)

end Listed

namespace Argument

open Item

variable {a : Listed} {list : List Listed} {item : Item}

/-! ## Cutting the list -/

theorem ne_of_isBlank {c : Char} (h : Text.isBlank c = true) : c ≠ ',' ∧ c ≠ '"' ∧ c ≠ '\'' := by
  refine ⟨?_, ?_, ?_⟩ <;> rintro rfl <;> revert h <;> decide

theorem closed_of_allBlank {s : String} (h : Text.allBlank s = true) : Closed s.toList :=
  closed_of_plain fun c hc => ne_of_isBlank (List.all_eq_true.1 h c hc)

theorem closed_item (h : item.isWritable = true) : Closed item.text.toList := by
  cases item with
  | literal l => exact closed_text h
  | single s =>
    have hquote : '\'' ∉ s.toList := by simpa [isWritable] using h
    simpa [text] using closed_quoted (.inr rfl) hquote
  | path p =>
    have hplain : ∀ c ∈ '=' :: p.toList, c ≠ ',' ∧ c ≠ '"' ∧ c ≠ '\'' := by
      simpa [isWritable] using h
    simpa [text] using closed_of_plain hplain

theorem closed_listed (h : a.isWritable = true) : Closed a.text.toList := by
  simp only [Listed.isWritable, Bool.and_eq_true] at h
  obtain ⟨⟨hbefore, hitem⟩, hafter⟩ := h
  rw [Listed.text, String.toList_append, String.toList_append]
  exact ((closed_of_allBlank hbefore).append (closed_item hitem)).append (closed_of_allBlank hafter)

/-! ## Reading an argument -/

/-- A path is read as its value, whatever blanks are dropped at its ends. -/
theorem value_path (context : Context) (p : String) :
    Argument.value context (Text.trim ("=" ++ p)) = (path p).value context := by
  obtain ⟨kept, blanks, rfl, hblanks, hlast⟩ := Text.exists_eq_append_blank p
  have hkept : Text.trim ("=" ++ kept) = "=" ++ kept := by
    refine Text.trim_eq_self (by simp [Text.isBlank]) ?_
    cases hend : kept.toList.getLast? with
    | none => simp [List.getLast?_eq_none_iff.1 hend, Text.isBlank]
    | some c =>
      rw [hend] at hlast
      simpa [List.getLast?_cons, hend] using hlast
  rw [← String.append_assoc, Text.trim_append_blank hblanks, hkept, Item.value,
    Text.trim_append_blank hblanks]
  have hcs : ("=" ++ kept).toList = '=' :: kept.toList := by simp
  unfold Argument.value
  split
  next rest heq =>
    rw [hcs] at heq
    obtain ⟨-, rfl⟩ := List.cons.inj heq
    rw [String.ofList_toList]
  next hne => exact absurd hcs (hne _)

theorem value_item (context : Context) (h : item.isWritable = true) :
    Argument.value context (Text.trim item.text) = item.value context := by
  cases item with
  | literal l =>
    rw [text, trim_text]
    exact value_text context h
  | single s =>
    have htext : (single s).text.toList = '\'' :: (s.toList ++ ['\'']) := by simp [text]
    have htrim : Text.trim (single s).text = (single s).text := by
      refine Text.trim_eq_self ?_ ?_ <;> simp [htext, List.getLast?_cons] <;> decide
    rw [htrim]
    exact value_quoted context (.inr rfl) htext
  | path p => exact value_path context p

theorem value_listed (context : Context) (h : a.isWritable = true) :
    Argument.value context (Text.trim a.text) = a.item.value context := by
  simp only [Listed.isWritable, Bool.and_eq_true] at h
  obtain ⟨⟨hbefore, hitem⟩, hafter⟩ := h
  rw [Listed.text, Text.trim_append_blank hafter, Text.trim_blank_append hbefore]
  exact value_item context hitem

theorem allBlank_listed (a : Listed) : Text.allBlank a.text = false := by
  obtain ⟨c, hc, hblank⟩ : ∃ c ∈ a.item.text.toList, Text.isBlank c = false := by
    cases hitem : a.item with
    | literal l =>
      have hl := allBlank_text l
      rw [Text.allBlank, List.all_eq_false] at hl
      simpa [text] using hl
    | single s => exact ⟨'\'', by simp [text], by decide⟩
    | path p => exact ⟨'=', by simp [text], by decide⟩
  rw [Text.allBlank, List.all_eq_false]
  exact ⟨c, by simp [Listed.text, hc], by simp [hblank]⟩

theorem parse_cons (context : Context) (h : ∀ b ∈ a :: list, b.isWritable = true) :
    parse context (some (Listed.written (a :: list))) =
      (a :: list).mapM fun b => b.item.value context :=
  parse_intercalate context (fun b hb => closed_listed (h b hb)) (allBlank_listed a)
    fun b hb => value_listed context (h b hb)

/-- Written literals are read as their values. -/
theorem parse_written (context : Context) {literals : List Literal}
    (h : ∀ l ∈ literals, l.isWritable = true) :
    parse context (some (Literal.written literals)) = .ok (literals.map Literal.value) := by
  cases literals with
  | nil => rfl
  | cons first rest =>
    let list := (first :: rest).map fun l => (⟨"", .literal l, ""⟩ : Listed)
    have htext : ∀ l : Literal, (⟨"", .literal l, ""⟩ : Listed).text = l.text := fun l => by
      simp [Listed.text, text]
    have hwritten : Literal.written (first :: rest) = Listed.written list := by
      simp only [Literal.written, Listed.written, list, List.map_map, Function.comp_def, htext]
    have hwritable : ∀ a ∈ list, a.isWritable = true := by
      intro a ha
      obtain ⟨l, hl, rfl⟩ := List.mem_map.1 ha
      simpa [Listed.isWritable, isWritable, Text.allBlank] using h l hl
    have hparse : parse context (some (Listed.written list)) =
        list.mapM fun b => b.item.value context := parse_cons context hwritable
    rw [hwritten, hparse, List.mapM_map]
    exact List.mapM_pure

end Argument

end MailMerge
