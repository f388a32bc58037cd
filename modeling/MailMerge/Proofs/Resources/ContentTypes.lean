import MailMerge.Proofs.Resources.Appended

/-!
# Media types of images

A format is declared for its extension if no child of the root has its media type. Main statement:
`ImageFormat.declareAll_covers` says which files of images are covered by a declaration of their
extension: those that were before, and those whose media type nothing has declared. A declaration of
the media type for another extension, or for a single file, keeps the extension from being declared.
-/

namespace MailMerge

open Xml Xml.Document

namespace Resources

/-- The extension of a file name: what follows its last point. -/
def extensionOf (path : String) : String :=
  String.ofList (path.toList.reverse.takeWhile (· ≠ '.')).reverse

/-- The file of an image has the extension of its format. -/
theorem extensionOf_mediaTarget (id : String) (picture : Picture) :
    extensionOf (mediaTarget id picture) = picture.format.extension := by
  have hletters : ∀ format : ImageFormat,
      ∀ c ∈ format.extension.toList.reverse, decide (c ≠ '.') = true := by
    intro format
    refine List.all_eq_true.1 ?_
    cases format <;> decide
  have hchars : (mediaTarget id picture).toList.reverse =
      picture.format.extension.toList.reverse ++
        '.' :: ("media/auto".toList ++ (Text.downcase id).toList).reverse := by
    simp [mediaTarget, toString]
  rw [extensionOf, hchars, List.takeWhile_append_of_pos (hletters picture.format),
    List.takeWhile_cons_of_neg (by decide), List.append_nil, List.reverse_reverse,
    String.ofList_toList]

end Resources

namespace ImageFormat

variable {d e : Document} {format other : ImageFormat} {tags : List Element}

/-- The element that declares a format for its extension. -/
def declaration (format : ImageFormat) : Element :=
  ⟨"Default", [⟨"Extension", format.extension⟩, ⟨"ContentType", format.mediaType⟩]⟩

/-- The formats whose media type no child of the root declares. -/
def missing (d : Document) : List ImageFormat := all.filter fun format => !isDeclared d format

/-- A child of the root declares a media type for an extension. -/
def covers (d : Document) (extension mediaType : String) : Bool :=
  (d.elementChildren d.root).any fun x =>
    d.isNamed x "Default" && d.attribute? x "Extension" == some extension &&
      d.attribute? x "ContentType" == some mediaType

/-- The elements right below the root. -/
def rootElements (d : Document) : List Node :=
  ((d.below d.root).tops.map Prod.snd).filter Node.isElement

theorem any_elementChildren {p : NodeId → Bool} {q : Node → Bool} (hd : d.Distinct)
    (hpq : ∀ x node, d.node? x = some node → p x = q node) :
    (d.elementChildren d.root).any p = (rootElements d).any q := by
  rw [elementChildren, rootElements, List.any_map, List.filter_map, List.any_map]
  refine Bool.eq_iff_iff.2 ?_
  simp only [List.any_eq_true]
  refine exists_congr fun entry => and_congr_right fun hentry => ?_
  have hmem : (entry.1, entry.2) ∈ (d.below d.root).nodes :=
    (Forest.tops_sublist _).subset (List.mem_of_mem_filter hentry)
  rw [Function.comp_apply, Function.comp_apply, hpq _ _ ((hd.shows_below d.root).node? hmem)]

/-- A node declares the media type of a format. -/
def isDeclaredBy (format : ImageFormat) (node : Node) : Bool :=
  node.attribute? "ContentType" == some format.mediaType

theorem isDeclared_eq (hd : d.Distinct) (format : ImageFormat) :
    isDeclared d format = (rootElements d).any (isDeclaredBy format) :=
  any_elementChildren hd fun x node hnode => by
    rw [attribute?, hnode]
    rfl

/-- A node declares a media type for an extension. -/
def isCoveredBy (extension mediaType : String) (node : Node) : Bool :=
  node.isNamed "Default" && node.attribute? "Extension" == some extension &&
    node.attribute? "ContentType" == some mediaType

theorem covers_eq (hd : d.Distinct) (extension mediaType : String) :
    covers d extension mediaType = (rootElements d).any (isCoveredBy extension mediaType) :=
  any_elementChildren hd fun x node hnode => by
    rw [attribute?, attribute?, isNamed, name?, hnode]
    rfl

theorem rootElements_of_appended (h : d.Appended tags e) :
    rootElements e = rootElements d ++ tags.map .element := by
  rw [rootElements, h.payloads_children, List.filter_append, rootElements]
  refine congrArg _ (List.filter_eq_self.2 fun node hnode => ?_)
  obtain ⟨tag, -, rfl⟩ := List.mem_map.1 hnode
  rfl

theorem isDeclaredBy_declaration :
    isDeclaredBy format (.element (declaration other)) = decide (format = other) := by
  cases format <;> cases other <;> decide

theorem isDeclared_addElement (hd : d.WellFormed) :
    isDeclared (Resources.addElement d (declaration format)) other =
      (isDeclared d other || decide (other = format)) := by
  have happended := Resources.appended_addElement hd (declaration format)
  rw [isDeclared_eq happended.distinct, isDeclared_eq hd.toDistinct,
    rootElements_of_appended happended, List.any_append]
  simp [isDeclaredBy_declaration]

/-- The declared formats are those that were missing, in their order. -/
theorem foldl_declare (hd : d.WellFormed) {formats : List ImageFormat} (hnodup : formats.Nodup) :
    formats.foldl declare d =
      ((formats.filter fun format => !isDeclared d format).map declaration).foldl
        Resources.addElement d := by
  induction formats generalizing d with
  | nil => rfl
  | cons format formats ih =>
    obtain ⟨hformat, hnodup⟩ := List.nodup_cons.1 hnodup
    rw [List.foldl_cons, declare, List.filter_cons]
    split
    next hdeclared => simpa [hdeclared] using ih hd hnodup
    next hdeclared =>
      have hlater : formats.filter (fun other =>
          !isDeclared (Resources.addElement d (declaration format)) other) =
            formats.filter fun other => !isDeclared d other := by
        refine List.filter_congr fun other hother => ?_
        have hne : other ≠ format := fun heq => hformat (heq ▸ hother)
        simp [isDeclared_addElement hd, hne]
      have hrest := ih (Resources.appended_addElement hd (declaration format)).wellFormed hnodup
      rw [hlater] at hrest
      rw [if_pos (by simp [hdeclared]), List.map_cons, List.foldl_cons]
      exact hrest

theorem declareAll_appended (hd : d.WellFormed) :
    d.Appended ((missing d).map declaration) (declareAll d) := by
  rw [declareAll, foldl_declare hd (by decide)]
  exact Resources.appended_foldl hd _

/-- After the declarations, every format is declared. -/
theorem isDeclared_declareAll (hd : d.WellFormed) (format : ImageFormat) :
    isDeclared (declareAll d) format = true := by
  have happended := declareAll_appended hd
  rw [isDeclared_eq happended.distinct, rootElements_of_appended happended, List.any_append,
    ← isDeclared_eq hd.toDistinct, Bool.or_eq_true]
  refine or_iff_not_imp_left.2 fun hnot => ?_
  rw [List.any_map, List.any_map, List.any_eq_true]
  have hall : format ∈ all := by cases format <;> decide
  refine ⟨format, List.mem_filter.2 ⟨hall, by simpa using hnot⟩, ?_⟩
  simp [isDeclaredBy_declaration]

theorem declareAll_eq_self (hd : d.WellFormed) (h : ∀ format, isDeclared d format = true) :
    declareAll d = d := by
  have hmissing : all.filter (fun format => !isDeclared d format) = [] :=
    List.filter_eq_nil_iff.2 fun format _ => by simp [h]
  rw [declareAll, foldl_declare hd (by decide), hmissing]
  rfl

theorem declareAll_declareAll (hd : d.WellFormed) : declareAll (declareAll d) = declareAll d :=
  declareAll_eq_self (declareAll_appended hd).wellFormed (isDeclared_declareAll hd)

theorem isCoveredBy_declaration :
    isCoveredBy format.extension format.mediaType (.element (declaration other)) =
      decide (format = other) := by
  cases format <;> cases other <;> decide

/-- What is added for the formats whose media type is not declared covers their extensions, and
nothing else does that was not there. The files of images have these extensions. -/
theorem declareAll_covers (hd : d.WellFormed) (id : String) (picture : Picture) :
    d.Appended ((missing d).map declaration) (declareAll d) ∧
      declareAll (declareAll d) = declareAll d ∧
      isDeclared (declareAll d) picture.format = true ∧
      (covers (declareAll d) (Resources.extensionOf (Resources.mediaTarget id picture))
          picture.format.mediaType = true ↔
        covers d (Resources.extensionOf (Resources.mediaTarget id picture))
            picture.format.mediaType = true ∨
          isDeclared d picture.format = false) := by
  have happended := declareAll_appended hd
  refine ⟨happended, declareAll_declareAll hd, isDeclared_declareAll hd _, ?_⟩
  have hall : picture.format ∈ all := by cases picture.format <;> decide
  rw [Resources.extensionOf_mediaTarget, covers_eq happended.distinct, covers_eq hd.toDistinct,
    rootElements_of_appended happended, List.any_append, Bool.or_eq_true]
  refine or_congr Iff.rfl ?_
  simp [List.any_map, isCoveredBy_declaration, missing, hall, Function.comp_def]

/-! ## A package with another extension -/

/-- Content types that declare images of a format for another extension than that of its files. -/
def jpgTypes : Document where
  rows := [.single 0 (.element ⟨"Types", []⟩) (.single 1 (.element ⟨"Default",
    [⟨"Extension", "jpg"⟩, ⟨"ContentType", "image/jpeg"⟩]⟩) .nil)]
  aside := []
  root := 0
  next := 2
  declaration := none

/-- An image that ends after its mark. -/
def shortJpeg : Picture := ⟨[0xFF, 0xD8, 0xFF], .jpeg, rfl⟩

/-- The extension of such a file is not declared, although all other formats are. -/
theorem jpgTypes_covers :
    jpgTypes.Appended ([png, bmp, gif].map declaration) (declareAll jpgTypes) ∧
      covers (declareAll jpgTypes) (Resources.extensionOf (Resources.mediaTarget "rId1" shortJpeg))
        shortJpeg.format.mediaType = false := by
  have hd : jpgTypes.WellFormed := ⟨⟨by decide, by decide⟩, by decide⟩
  obtain ⟨happended, -, -, hcovers⟩ := declareAll_covers hd "rId1" shortJpeg
  have hmissing : missing jpgTypes = [png, bmp, gif] := by decide +kernel
  rw [hmissing] at happended
  refine ⟨happended, Bool.eq_false_iff.2 (mt hcovers.1 ?_)⟩
  decide +kernel

end ImageFormat

end MailMerge
