import MailMerge.Proofs.Resources
import MailMerge.Proofs.Resources.Appended

/-!
# Relationships of placed images

Images get consecutive numbers after the highest one that the template uses, as long as there are
numbers left. Main statement: `Resources.writeRelationships_agrees` says that the written relationships
are those of the template and, after them, one for each image in the order in which the images were
placed, and that the resources are found again in what was written.
-/

namespace MailMerge

open Xml Xml.Document

namespace Resources

variable {resources after : Resources} {picture : Picture} {pictures : List Picture}
  {placed : List (String × Picture)} {d e : Document} {id : String} {n : Nat}

/-! ## Placing images -/

/-- Adds images one after the other. Answers them with their identifiers. -/
def addImages? (resources : Resources) : List Picture → Option (List (String × Picture) × Resources)
  | [] => some ([], resources)
  | picture :: pictures => do
    let (id, resources) ← resources.addImage? picture
    let (placed, resources) ← resources.addImages? pictures
    return ((id, picture) :: placed, resources)

/-- Images with consecutive numbers after `n`. -/
def numbered (n : Nat) : List Picture → List (String × Picture)
  | [] => []
  | picture :: pictures => (idOf (n + 1), picture) :: numbered (n + 1) pictures

theorem numbered_snd (n : Nat) (pictures : List Picture) :
    (numbered n pictures).map Prod.snd = pictures := by
  induction pictures generalizing n with
  | nil => rfl
  | cons picture pictures ih => rw [numbered, List.map_cons, ih]

/-- The numbers that images get are not used up. -/
def Room (resources : Resources) (pictures : List Picture) : Prop :=
  resources.highest + pictures.length < Decimal.endOfWords

theorem Room.first (h : resources.Room (picture :: pictures)) :
    resources.highest + 1 < Decimal.endOfWords := by
  rw [Room, List.length_cons] at h
  omega

theorem Room.rest (h : resources.Room (picture :: pictures))
    (hadd : resources.addImage? picture = some (id, after)) : after.Room pictures := by
  rw [Room, highest_addImage? hadd]
  rw [Room, List.length_cons] at h
  omega

theorem addImages?_cons_eq_some_iff :
    resources.addImages? (picture :: pictures) = some (placed, after) ↔
      ∃ id next more, resources.addImage? picture = some (id, next) ∧
        next.addImages? pictures = some (more, after) ∧ (id, picture) :: more = placed := by
  constructor
  · intro h
    obtain ⟨⟨id, next⟩, hfirst, h⟩ := Option.bind_eq_some_iff.1 h
    obtain ⟨⟨more, last⟩, hrest, h⟩ := Option.bind_eq_some_iff.1 h
    cases h
    exact ⟨id, next, more, hfirst, hrest, rfl⟩
  · rintro ⟨id, next, more, hfirst, hrest, rfl⟩
    exact Option.bind_eq_some_iff.2
      ⟨(id, next), hfirst, Option.bind_eq_some_iff.2 ⟨(more, after), hrest, rfl⟩⟩

theorem exists_addImages? (h : resources.Room pictures) :
    ∃ after, resources.addImages? pictures = some (numbered resources.highest pictures, after) := by
  induction pictures generalizing resources with
  | nil => exact ⟨resources, rfl⟩
  | cons picture pictures ih =>
    have hadd : resources.addImage? picture = some (idOf (resources.highest + 1), _) :=
      addImage?_eq_some_iff.2 ⟨h.first, rfl, rfl⟩
    obtain ⟨after, hrest⟩ := ih (h.rest hadd)
    rw [highest_addImage? hadd] at hrest
    exact ⟨after, addImages?_cons_eq_some_iff.2 ⟨_, _, _, hadd, hrest, rfl⟩⟩

theorem mem_keys_addImages? (h : resources.addImages? pictures = some (placed, after)) :
    id ∈ after.map Prod.fst ↔ id ∈ placed.map Prod.fst ∨ id ∈ resources.map Prod.fst := by
  induction pictures generalizing resources placed with
  | nil =>
    cases h
    simp
  | cons picture pictures ih =>
    obtain ⟨id, next, more, hadd, hrest, rfl⟩ := addImages?_cons_eq_some_iff.1 h
    obtain ⟨-, -, rfl⟩ := addImage?_eq_some_iff.1 hadd
    rw [ih hrest, Keyed.mem_keys_insert, List.map_cons, List.mem_cons]
    tauto

/-- The images among the resources. -/
def pictured (resources : Resources) : List (String × Picture) :=
  resources.filterMap fun (id, resource) => resource.picture?.map (id, ·)

theorem pictured_addImages? (h : resources.addImages? pictures = some (placed, after)) :
    after.pictured.Perm (placed ++ resources.pictured) := by
  induction pictures generalizing resources placed with
  | nil =>
    cases h
    exact .refl _
  | cons picture pictures ih =>
    obtain ⟨id, next, more, hadd, hrest, rfl⟩ := addImages?_cons_eq_some_iff.1 h
    have hnot := addImage?_notMem hadd
    obtain ⟨-, -, rfl⟩ := addImage?_eq_some_iff.1 hadd
    have hfirst : (pictured (Keyed.insert id (.image picture) resources)).Perm
        ((id, picture) :: resources.pictured) := (Keyed.insert_perm hnot).filterMap _
    refine (ih hrest).trans ?_
    exact (hfirst.append_left _).trans List.perm_middle

theorem exists_number_of_mem_numbered {entry : String × Picture} (h : entry ∈ numbered n pictures) :
    ∃ m, n < m ∧ m ≤ n + pictures.length ∧ entry.1 = idOf m := by
  induction pictures generalizing n with
  | nil => cases h
  | cons picture pictures ih =>
    rcases List.mem_cons.1 h with rfl | h
    · exact ⟨n + 1, by omega, by simp, rfl⟩
    · obtain ⟨m, hlow, hhigh, hid⟩ := ih h
      exact ⟨m, by omega, by rw [List.length_cons]; omega, hid⟩

theorem precedes_trans {a b c : String × Picture} (hab : precedes a b = true)
    (hbc : precedes b c = true) : precedes a c = true := by
  unfold precedes at *
  cases ha : number? a.1 <;> cases hb : number? b.1 <;> cases hc : number? c.1 <;> grind

theorem precedes_total (a b : String × Picture) : (precedes a b || precedes b a) = true := by
  unfold precedes
  cases number? a.1 <;> cases number? b.1 <;> grind

theorem pairwise_numbered (n : Nat) (pictures : List Picture) :
    (numbered n pictures).Pairwise fun a b => ∃ i j, i < j ∧ j ≤ n + pictures.length ∧
      a.1 = idOf i ∧ b.1 = idOf j := by
  induction pictures generalizing n with
  | nil => exact .nil
  | cons picture pictures ih =>
    have hlength : n + (picture :: pictures).length = n + 1 + pictures.length := by
      rw [List.length_cons]
      omega
    rw [numbered, List.pairwise_cons, hlength]
    refine ⟨fun entry hentry => ?_, ih (n + 1)⟩
    obtain ⟨m, hlow, hhigh, hid⟩ := exists_number_of_mem_numbered hentry
    exact ⟨n + 1, m, hlow, hhigh, rfl, hid⟩

theorem nodup_ids_numbered (n : Nat) (pictures : List Picture) :
    ((numbered n pictures).map Prod.fst).Nodup := by
  rw [List.Nodup, List.pairwise_map]
  refine (pairwise_numbered n pictures).imp ?_
  rintro a b ⟨i, j, hlt, -, hi, hj⟩ heq
  exact Nat.ne_of_lt hlt (idOf_injective (hi.symm.trans (heq.trans hj)))

/-- Images are listed in the order in which they were placed. -/
theorem mergeSort_eq_numbered {entries : List (String × Picture)}
    (h : n + pictures.length < Decimal.endOfWords) (hperm : entries.Perm (numbered n pictures)) :
    entries.mergeSort precedes = numbered n pictures := by
  have hmerge := (List.mergeSort_perm entries precedes).trans hperm
  have hsorted : (entries.mergeSort precedes).Pairwise fun a b => precedes a b = true :=
    @List.pairwise_mergeSort _ precedes (fun _ _ _ => precedes_trans) precedes_total entries
  refine List.Perm.eq_of_pairwise (fun a b ha hb hab hba => ?_) hsorted ?_ hmerge
  · have ha := hmerge.subset ha
    obtain ⟨i, -, hi, hida⟩ := exists_number_of_mem_numbered ha
    obtain ⟨j, -, hj, hidb⟩ := exists_number_of_mem_numbered hb
    have hij : i = j := by
      unfold precedes at hab hba
      rw [hida, hidb, number?_idOf (by omega), number?_idOf (by omega)] at hab hba
      simp only [decide_eq_true_eq] at hab hba
      omega
    exact List.inj_on_of_nodup_map (nodup_ids_numbered n pictures) ha hb (by rw [hida, hidb, hij])
  · refine (pairwise_numbered n pictures).imp ?_
    rintro a b ⟨i, j, hlt, hle, hi, hj⟩
    unfold precedes
    rw [hi, hj, number?_idOf (by omega), number?_idOf (by omega)]
    exact decide_eq_true (Nat.le_of_lt hlt)

/-! ## File names -/

theorem lowerFrom_of_ascii {cs : List Char} (before : List Char) (h : ∀ c ∈ cs, c.toNat < 128) :
    Text.lowerFrom before cs = cs.map Char.toLower := by
  induction cs generalizing before with
  | nil => rfl
  | cons c cs ih =>
    have hc := h c List.mem_cons_self
    have hsigma : c ≠ 'Σ' := by
      rintro rfl
      exact absurd hc (by decide)
    rw [Text.lowerFrom, if_neg hsigma, Text.lowerChar, if_pos hc,
      ih _ fun c hc => h c (List.mem_cons_of_mem _ hc)]
    rfl

theorem downcase_idOf (n : Nat) :
    (Text.downcase (idOf n)).toList = 'r' :: 'i' :: 'd' :: Nat.toDigits 10 n := by
  have hdigit : ∀ c ∈ Nat.toDigits 10 n, c.toNat < 128 ∧ c.toLower = c := by
    intro c hc
    obtain ⟨hlow, hhigh⟩ : 48 ≤ c.toNat ∧ c.toNat ≤ 57 := by
      simpa [Decimal.isDigit, Char.le_def, UInt32.le_iff_toNat_le] using
        Decimal.isDigit_of_mem_toDigits hc
    refine ⟨by omega, dif_neg fun h => ?_⟩
    have hupper : 65 ≤ c.toNat := UInt32.le_iff_toNat_le.1 h.1
    omega
  have hascii : ∀ c ∈ (idOf n).toList, c.toNat < 128 := by
    rw [toList_idOf]
    simp only [List.forall_mem_cons]
    exact ⟨by decide, by decide, by decide, fun c hc => (hdigit c hc).1⟩
  rw [Text.downcase, String.toList_ofList, lowerFrom_of_ascii _ hascii, toList_idOf, List.map_cons,
    List.map_cons, List.map_cons, List.map_congr_left fun c hc => (hdigit c hc).2, List.map_id']
  rfl

/-- The files of images with different numbers have different names, whatever their formats. -/
theorem mediaTarget_injective {m n : Nat} {picture picture' : Picture}
    (h : mediaTarget (idOf m) picture = mediaTarget (idOf n) picture') : m = n := by
  have hchars : ∀ k (p : Picture), (mediaTarget (idOf k) p).toList =
      "media/autorid".toList ++ (Nat.toDigits 10 k ++ '.' :: p.format.extension.toList) := by
    intro k p
    simp [mediaTarget, toString, downcase_idOf]
  have hpoint : ∀ k, ∀ c ∈ Nat.toDigits 10 k, decide (c ≠ '.') = true := by
    rintro k c hc
    refine decide_eq_true ?_
    rintro rfl
    exact absurd (Decimal.isDigit_of_mem_toDigits hc) (by decide)
  have htails := congrArg String.toList h
  rw [hchars, hchars, List.append_cancel_left_eq] at htails
  have hdigits := congrArg (List.takeWhile (· ≠ '.')) htails
  rw [List.takeWhile_append_of_pos (hpoint m), List.takeWhile_append_of_pos (hpoint n),
    List.takeWhile_cons_of_neg (by decide), List.takeWhile_cons_of_neg (by decide),
    List.append_nil, List.append_nil] at hdigits
  exact Decimal.toDigits_injective hdigits

/-! ## Relationships in markup -/

/-- The relationship of an image. -/
def relationship (image : String × Picture) : Element :=
  ⟨"Relationship", [⟨"Id", image.1⟩, ⟨"Type", imageRelationship⟩,
    ⟨"Target", mediaTarget image.1 image.2⟩]⟩

/-- The relationship that a node declares. -/
def declaredBy? (node : Node) : Option (String × Resource) :=
  if node.isNamed "Relationship" then
    (node.attribute? "Id").map fun id =>
      (id, .relationship ((node.attribute? "Type").getD "") ((node.attribute? "Target").getD ""))
  else none

theorem declared_eq (hd : d.Distinct) :
    declared d = ((d.below d.root).nodes.map Prod.snd).filterMap declaredBy? := by
  rw [declared, findAll, List.filterMap_map, List.filterMap_filter, List.filterMap_map]
  refine List.filterMap_congr fun entry hentry => ?_
  have hnode := (hd.shows_below d.root).node? hentry
  simp only [Function.comp_apply, attribute?, hnode, Option.bind_some]
  rfl

theorem declaredBy?_relationship (image : String × Picture) :
    declaredBy? (.element (relationship image)) =
      some (image.1, .relationship imageRelationship (mediaTarget image.1 image.2)) := rfl

theorem declared_of_appended {images : List (String × Picture)} (hd : d.Distinct)
    (h : d.Appended (images.map relationship) e) :
    declared e = declared d ++ images.map fun image =>
      (image.1, .relationship imageRelationship (mediaTarget image.1 image.2)) := by
  rw [declared_eq h.distinct, declared_eq hd, h.payloads_below, List.filterMap_append]
  refine congrArg _ ?_
  rw [List.map_map, List.filterMap_map]
  exact (List.filterMap_congr fun image _ => declaredBy?_relationship image).trans
    (congrFun List.filterMap_eq_map images)

theorem pictured_ofRelationships (d : Document) : (ofRelationships d).pictured = [] := by
  refine List.filterMap_eq_nil_iff.2 fun entry hentry => ?_
  obtain ⟨x, -, hx⟩ := List.mem_filterMap.1 (Keyed.mem_of_mem_ofList hentry)
  obtain ⟨id, -, rfl⟩ := Option.map_eq_some_iff.1 hx
  rfl

theorem writeRelationships_eq (resources : Resources) (d : Document) :
    resources.writeRelationships d =
      ((resources.images.filter fun image => !((declared d).map Prod.fst).contains image.1).map
        relationship).foldl addElement d := by
  rw [writeRelationships, List.foldl_map]
  rfl

/-- Resources with the same identifiers give a new image the same one. -/
theorem nextId?_congr {other : Resources}
    (h : ∀ id, id ∈ resources.map Prod.fst ↔ id ∈ other.map Prod.fst) :
    resources.nextId? = other.nextId? := by
  have hhighest : resources.highest = other.highest := by
    refine Nat.le_antisymm (highest_le_iff.2 fun id hid n hn => ?_)
      (highest_le_iff.2 fun id hid n hn => ?_)
    · exact le_highest ((h id).1 hid) hn
    · exact le_highest ((h id).2 hid) hn
  rw [nextId?, nextId?, hhighest]

/-- No identifier of a placed image is declared. -/
theorem notMem_declared {image : String × Picture} (hroom : (ofRelationships d).Room pictures)
    (himage : image ∈ numbered (ofRelationships d).highest pictures) :
    image.1 ∉ (declared d).map Prod.fst := by
  obtain ⟨m, hlow, hhigh, hid⟩ := exists_number_of_mem_numbered himage
  intro hdeclared
  have hin : idOf m ∈ (ofRelationships d).map Prod.fst :=
    Keyed.mem_keys_ofList.2 (hid ▸ hdeclared)
  have hle := le_highest hin (number?_idOf (by rw [Room] at hroom; omega))
  omega

/-- The images that are listed are those that were placed, in the same order. -/
theorem images_addImages? (hroom : (ofRelationships d).Room pictures)
    (hadd : (ofRelationships d).addImages? pictures =
      some (numbered (ofRelationships d).highest pictures, after)) :
    after.images = numbered (ofRelationships d).highest pictures := by
  have hperm := pictured_addImages? hadd
  rw [pictured_ofRelationships, List.append_nil] at hperm
  exact mergeSort_eq_numbered hroom hperm

/-- A relationship is written for each image, since none of them is declared. -/
theorem writeRelationships_appended (hd : d.WellFormed) (hroom : (ofRelationships d).Room pictures)
    (himages : resources.images = numbered (ofRelationships d).highest pictures) :
    d.Appended ((numbered (ofRelationships d).highest pictures).map relationship)
      (resources.writeRelationships d) := by
  have hnew : ((numbered (ofRelationships d).highest pictures).filter fun image =>
      !((declared d).map Prod.fst).contains image.1) = numbered _ pictures :=
    List.filter_eq_self.2 fun image himage => by simpa using notMem_declared hroom himage
  rw [writeRelationships_eq, himages, hnew]
  exact appended_foldl hd _

/-- The files of images with consecutive numbers have different names. -/
theorem nodup_media (himages : resources.images = numbered n pictures) :
    (resources.media.map Prod.fst).Nodup := by
  rw [media, himages, List.map_map, List.Nodup, List.pairwise_map]
  refine (pairwise_numbered n pictures).imp ?_
  rintro a b ⟨i, j, hlt, -, hi, hj⟩ heq
  have htargets : mediaTarget a.1 a.2 = mediaTarget b.1 b.2 :=
    String.toList_injective (by simpa using congrArg String.toList heq)
  rw [hi, hj] at htargets
  exact Nat.ne_of_lt hlt (mediaTarget_injective htargets)

/-- As long as there are numbers for them, images are placed with the resources of a template, and
their relationships are written to it. The old nodes stay and come first. After them there is one
relationship for each image, in the order in which they were placed, with the name of the file that is
listed for it, and these names are all different. To write once more changes nothing, and what is read
again has the same identifiers and gives a new image the same one. -/
theorem writeRelationships_agrees (hd : d.WellFormed) (pictures : List Picture)
    (hroom : (ofRelationships d).highest + pictures.length < Decimal.endOfWords) :
    ∃ placed resources, (ofRelationships d).addImages? pictures = some (placed, resources) ∧
      let written := resources.writeRelationships d
      placed.map Prod.snd = pictures ∧
      d.Appended (placed.map relationship) written ∧
      resources.media =
        placed.map (fun (id, picture) => ("word/" ++ mediaTarget id picture, picture)) ∧
      (resources.media.map Prod.fst).Nodup ∧
      resources.writeRelationships written = written ∧
      (∀ id, id ∈ (ofRelationships written).map Prod.fst ↔ id ∈ resources.map Prod.fst) ∧
      (ofRelationships written).nextId? = resources.nextId? := by
  obtain ⟨resources, hadd⟩ := exists_addImages? hroom
  have himages := images_addImages? hroom hadd
  have happended := writeRelationships_appended hd hroom himages
  have hids : (declared (resources.writeRelationships d)).map Prod.fst =
      (declared d).map Prod.fst ++ (numbered (ofRelationships d).highest pictures).map Prod.fst := by
    rw [declared_of_appended hd.toDistinct happended, List.map_append, List.map_map]
    rfl
  have hread : ∀ id, id ∈ (ofRelationships (resources.writeRelationships d)).map Prod.fst ↔
      id ∈ resources.map Prod.fst := by
    intro id
    rw [mem_keys_addImages? hadd, ofRelationships, Keyed.mem_keys_ofList, hids, List.mem_append,
      or_comm]
    exact or_congr_right Keyed.mem_keys_ofList.symm
  have hknown : (resources.images.filter fun image =>
      !((declared (resources.writeRelationships d)).map Prod.fst).contains image.1) = [] := by
    refine List.filter_eq_nil_iff.2 fun image himage => ?_
    rw [himages] at himage
    simp [hids, List.mem_map_of_mem himage]
  refine ⟨_, resources, hadd, numbered_snd _ _, happended, by rw [media, himages],
    nodup_media himages, ?_, hread, nextId?_congr hread⟩
  rw [writeRelationships_eq, hknown]
  rfl

/-! ## Relationships with and without identifiers -/

/-- A relationship with an identifier, around others. -/
def relationshipRow (x : NodeId) (id : String) (inside : Forest) : Forest :=
  .single x (.element ⟨"Relationship", [⟨"Id", id⟩]⟩) inside

/-- Relationships of which one is within another, one has no identifier and two have the same. -/
def nestedRelationships : Document where
  rows := [.single 0 (.element ⟨"Relationships", []⟩)
    (relationshipRow 1 "rId007" (relationshipRow 2 "custom" .nil) ++
      .single 3 (.element ⟨"Relationship", []⟩) .nil ++ relationshipRow 4 "custom" .nil)]
  aside := []
  root := 0
  next := 5
  declaration := none

/-- An image that ends after its mark. -/
def shortPng : Picture := ⟨[0x89, 0x50, 0x4E, 0x47], .png, rfl⟩

/-- Two images get the numbers after the one that is written with leading zeros. -/
theorem nestedRelationships_agrees : ∃ written,
    nestedRelationships.Appended
      [relationship ("rId8", shortPng), relationship ("rId9", shortPng)] written ∧
    (ofRelationships written).nextId? = some "rId10" := by
  have hd : nestedRelationships.WellFormed := ⟨⟨by decide +kernel, by decide +kernel⟩, by decide +kernel⟩
  have hroom : (ofRelationships nestedRelationships).highest + [shortPng, shortPng].length <
      Decimal.endOfWords := by decide +kernel
  obtain ⟨placed, resources, hadd, -, happended, -, -, -, -, hnext⟩ :=
    writeRelationships_agrees hd [shortPng, shortPng] hroom
  have hplaced : ((ofRelationships nestedRelationships).addImages? [shortPng, shortPng]).map
      (fun result => (result.1, result.2.nextId?)) =
        some ([("rId8", shortPng), ("rId9", shortPng)], some "rId10") := by decide +kernel
  rw [hadd, Option.map_some, Option.some_inj, Prod.mk.injEq] at hplaced
  obtain ⟨rfl, hnext'⟩ := hplaced
  exact ⟨_, happended, hnext.trans hnext'⟩

/-- One relationship, which has the last number of all. -/
def fullRelationships : Document where
  rows := [.single 0 (.element ⟨"Relationships", []⟩)
    (relationshipRow 1 "rId18446744073709551615" .nil)]
  aside := []
  root := 0
  next := 2
  declaration := none

/-- After the last number of all there is none for an image, so that none can be placed. -/
theorem fullRelationships_addImages? :
    fullRelationships.WellFormed ∧ (ofRelationships fullRelationships).addImages? [shortPng] = none :=
  ⟨⟨⟨by decide +kernel, by decide +kernel⟩, by decide +kernel⟩, by decide +kernel⟩

end Resources

end MailMerge
