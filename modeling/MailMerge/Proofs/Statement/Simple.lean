import MailMerge.Proofs.Field.Replacing
import MailMerge.Proofs.Rendering.Intact
import MailMerge.Proofs.Statement.Pairing
import MailMerge.Proofs.Text.Pattern

/-!
# Statements of tidy rows

In a tidy row all fields that carry a directive are simple fields or images. As images make insertions
only, the blocks of such a row are between simple fields (`Spans.simple`), and their anchors are these
fields or elements around them.
-/

namespace MailMerge

open Xml Xml.Forest Xml.Document

/-! ## Texts that close blocks -/

namespace Opening

variable {s path' : String} {parts : List Text.Part} {found : List String} {opening : Opening}

/-- A path that is found is where the text begins. -/
theorem head?_path (h : Text.match? (path :: parts) s = some (path' :: found)) :
    ∃ c tail, path'.toList = c :: tail ∧ s.toList.head? = some c := by
  rw [Text.match?_eq] at h
  obtain ⟨kept, hkept, hfound⟩ := Option.map_eq_some_iff.1 h
  obtain hform := Text.Form.of_matchParts? hkept
  generalize hs : s.toList = cs at hform
  cases hform with
  | @run _ _ _ _ _ _ run _ hne =>
    cases run with
    | nil => exact absurd rfl (hne rfl)
    | cons c tail =>
      rw [Text.keepRun, if_pos rfl, List.map_cons] at hfound
      refine ⟨c, tail, ?_, rfl⟩
      rw [← (List.cons.inj hfound).1, String.toList_ofList]

/-- The text that closes a block does not begin with an equals sign, if the one that opens it does
not. -/
theorem head?_endText (h : ofText? s = some opening) (hs : s.toList.head? ≠ some '=') :
    opening.endText.toList.head? ≠ some '=' := by
  have hpath : ∀ {parts : List Text.Part} {path' word : String} {found : List String},
      Text.match? (path :: parts) s = some (path' :: found) →
        (path' ++ word).toList.head? ≠ some '=' := fun hfound => by
    obtain ⟨c, tail, hpath, hhead⟩ := head?_path hfound
    rw [String.toList_append, hpath]
    rwa [hhead] at hs
  unfold ofText? each? condition? call? at h
  rcases Option.or_eq_some_iff.1 h with h | ⟨-, h⟩
  · split at h
    next hfound => cases h; exact hpath hfound
    next => cases h
  rcases Option.or_eq_some_iff.1 h with h | ⟨-, h⟩
  · split at h
    next hfound => cases h; exact hpath hfound
    next hfound _ => cases h; exact hpath hfound
    next => cases h
  split at h
  next =>
    cases h
    decide
  next =>
    split at h
    next hfound => cases h; exact hpath hfound
    next hfound _ => cases h; exact hpath hfound
    next => cases h

end Opening

variable {d : Document} {f : Forest} {field : Field} {b : Block} {m m' x y : NodeId}
variable {rest : List Forest}

/-! ## Tidy rows -/

namespace Field

theorem tidy_iff (hf : f.ids.Nodup) :
    Tidy f ↔ ∀ x s, f.site? x = some s → s.node.isNamed "w:fldChar" = false ∧
      (s.node.isNamed "w:fldSimple" = true → Display s.children) := by
  induction f with
  | nil => exact ⟨fun _ x s hs => by simp [Forest.site?] at hs, fun _ => trivial⟩
  | cons id node children rest ihc ihr =>
    obtain ⟨-, -, hchildren, hrest, -⟩ := nodup_cons_iff.1 hf
    rw [Tidy, ihc hchildren, ihr hrest, forall_site?_cons (p := fun s =>
      s.node.isNamed "w:fldChar" = false ∧ (s.node.isNamed "w:fldSimple" = true → Display s.children)) hf,
      and_assoc]

end Field

namespace Xml.Document

open Field

/-- Whether a row is tidy is told by its nodes. -/
theorem Shows.tidy_iff (h : d.Shows f) :
    Tidy f ↔ ∀ z ∈ f.ids, d.isNamed z "w:fldChar" = false ∧
      (d.isNamed z "w:fldSimple" = true → Display (d.below z)) := by
  have hsame : ∀ {z s}, f.site? z = some s →
      (∀ name, d.isNamed z name = s.node.isNamed name) ∧ d.below z = s.children := fun hs => by
    obtain ⟨t, ht, hnode, hchildren⟩ := h.has _ _ hs
    rw [← hnode, ← hchildren, below_eq_site?, ht]
    refine ⟨fun name => ?_, rfl⟩
    rw [isNamed, name?, node?_eq_site?, ht]
    rfl
  rw [Field.tidy_iff h.nodup]
  constructor
  · intro hall z hz
    obtain ⟨s, hs⟩ := Forest.exists_site? hz
    obtain ⟨hname, hbelow⟩ := hsame hs
    rw [hname, hname, hbelow]
    exact hall z s hs
  · intro hall z s hs
    obtain ⟨hname, hbelow⟩ := hsame hs
    rw [← hname, ← hname, ← hbelow]
    exact hall z (Forest.mem_ids_of_site? hs)

end Xml.Document

/-! ## Fields of tidy rows -/

namespace Field

variable (hd : d.Distinct) (htidy : Tidy (d.tree x))
include hd htidy

theorem Tidy.display (hm : m ∈ d.descendants x) (hname : d.isNamed m "w:fldSimple" = true) :
    Display (d.below m) :=
  ((hd.shows_tree x).tidy_iff.1 htidy m hm).2 hname

/-- No simple field of a tidy row is inside another one. -/
theorem Tidy.notMem_below (hm : m ∈ d.descendants x) (hname : d.isNamed m "w:fldSimple" = true)
    (hy : d.isNamed y "w:fldSimple" = true) : y ∉ (d.below m).ids :=
  (htidy.display hd hm hname).notMem hd hy

/-- The fields of a tidy row are simple fields and images. -/
theorem FoundAt.shape_of_tidy (h : field.FoundAt d x m) :
    (field.shape = .simple m ∧ d.isNamed m "w:fldSimple" = true) ∨
      (field.shape = .image m ∧ d.isNamed m "w:drawing" = true ∧
        field.expression.toList.head? = some '=') := by
  have hmarker := ((hd.shows_tree x).tidy_iff.1 htidy m h.mem).1
  have hvalid := isValid_of_mem_discover h.found
  obtain ⟨node, hnode, hfield⟩ := h.begins
  have hnamed : ∀ name, d.isNamed m name = node.isNamed name := fun name => by
    rw [isNamed, name?, hnode]
    rfl
  rw [hnamed] at hmarker
  rw [hnamed, hnamed]
  unfold ofNode? at hfield
  split at hfield
  next hname =>
    cases hfield
    exact .inl ⟨rfl, hname⟩
  next =>
    rw [isMarker, hmarker, Bool.false_and, if_neg Bool.false_ne_true] at hfield
    split at hfield
    next hdrawing =>
      cases hfield
      exact .inr ⟨rfl, (Bool.and_eq_true_iff.1 hdrawing).1, head?_pictureDirective hvalid⟩
    next => cases hfield

/-- A field of a tidy row that is no insertion is simple. -/
theorem FoundAt.simple_of_tidy (h : field.FoundAt d x m)
    (hhead : field.expression.toList.head? ≠ some '=') :
    field.shape = .simple m ∧ d.isNamed m "w:fldSimple" = true := by
  rcases h.shape_of_tidy hd htidy with hsimple | ⟨-, -, himage⟩
  · exact hsimple
  · exact absurd himage hhead

end Field

/-! ## Blocks between simple fields -/

namespace Block

/-- A block between two simple fields. Its anchors are the fields themselves, or elements of other
names around them. -/
structure Simple (d : Document) (m m' : NodeId) (b : Block) : Prop where
  start : b.start.shape = .simple m
  stop : b.stop.shape = .simple m'
  name : d.isNamed m "w:fldSimple" = true
  name' : d.isNamed m' "w:fldSimple" = true
  first : m ∈ d.descendants b.first
  last : m' ∈ d.descendants b.last
  kind : (b.kind = .inline ∧ b.first = m ∧ b.last = m') ∨
    (b.kind ≠ .inline ∧ ∃ name, (name = "w:tr" ∨ name = "w:p") ∧ d.isNamed b.first name = true ∧
      d.isNamed b.last name = true)
  settled : b.settled? = none

theorem simple_between {start stop : Field} (hd : d.Distinct) (hstart : start.shape = .simple m)
    (hstop : stop.shape = .simple m') (hname : d.isNamed m "w:fldSimple" = true)
    (hname' : d.isNamed m' "w:fldSimple" = true) : (between d start stop).Simple d m m' := by
  have hends : ∀ {field : Field} {m : NodeId}, field.shape = .simple m →
      field.start = m ∧ field.stop = m := fun hshape => by
    simp [Field.start, Field.stop, Field.nodes, hshape]
  have haround : ∀ {field : Field} {m a : NodeId} {name : String}, field.shape = .simple m →
      field.ancestor? d name = some a →
        m ∈ d.descendants a ∧ d.isNamed a name = true := by
    intro field m a name hshape ha
    rw [Field.ancestor?, (hends hshape).1] at ha
    obtain ⟨⟨n, hn, hnamed⟩, hin⟩ := hd.of_ancestor? ha
    refine ⟨hin, ?_⟩
    rw [isNamed, Document.name?, hn]
    exact hnamed
  have hmem := mem_descendants_self (mem_ids_of_isNamed hname)
  have hmem' := mem_descendants_self (mem_ids_of_isNamed hname')
  rcases between_cases d start stop with ⟨hkind, hfirst, hlast⟩ | ⟨hkind, name, houter, hfirst, hlast⟩
  · rw [(hends hstart).2] at hfirst
    rw [(hends hstop).1] at hlast
    exact ⟨hstart, hstop, hname, hname', by rwa [hfirst], by rwa [hlast], .inl ⟨hkind, hfirst, hlast⟩,
      rfl⟩
  · obtain ⟨hin, hother⟩ := haround hstart hfirst
    obtain ⟨hin', hother'⟩ := haround hstop hlast
    exact ⟨hstart, hstop, hname, hname', hin, hin', .inr ⟨hkind, name, houter, hother, hother'⟩,
      rfl⟩

/-- What is taken out with a block between simple fields are its anchors. -/
theorem Simple.frame (h : b.Simple d m m') : b.frame = [b.first, b.last] := by
  rcases h.kind with ⟨hkind, hfirst, hlast⟩ | ⟨hkind, -⟩
  · rw [frame_of_inline hkind, hfirst, hlast]
    simp [Field.removed, Field.nodes, h.start, h.stop]
  · exact frame_of_ne hkind

end Block

namespace Statement

open Field

variable {opening : Opening} {fields : List Field} {statements : List Statement}

/-- The blocks of a tidy row are between simple fields. -/
theorem Spans.simple (h : Spans d x m m' (.block opening b)) (hd : d.Distinct)
    (htidy : Tidy (d.tree x)) (hends : b.stop.expression = opening.endText) : b.Simple d m m' := by
  cases h with
  | block opens first last =>
    rename_i start stop _
    have hends : stop.expression = opening.endText := hends
    obtain ⟨hhead, hread⟩ := Directive.ofText_eq_opening_iff.1 opens
    obtain ⟨hstart, hname⟩ := first.simple_of_tidy hd htidy hhead
    obtain ⟨hstop, hname'⟩ := last.simple_of_tidy hd htidy
      (by rw [hends]; exact Opening.head?_endText hread hhead)
    exact Block.simple_between hd hstart hstop hname hname'

/-- The last field of a block among the statements that fields make has the text that closes it. -/
theorem expression_stop (h : ofFields d fields = .ok statements)
    (hb : .block opening b ∈ statements) : b.stop.expression = opening.endText := by
  obtain ⟨-, -, -, stop, -, -, -, hends, rfl⟩ := exists_of_mem_block h hb
  exact hends

end Statement

end MailMerge
