import MailMerge.Proofs.Xml.Parse
import MailMerge.Proofs.Xml.Piece

/-!
# Declarations that are read back

A declaration is written with its version, its encoding and its standalone mark between double
quotes. It is read back when none of them has a double quote, because what a document has been read
with never holds the end of a declaration.
-/

namespace MailMerge.Xml

variable {cs rest : List Char}

/-- The parts of a declaration. -/
structure Declaration where
  version : List Char
  encoding : Option (List Char)
  standalone : Option (List Char)

namespace Declaration

/-- The parts that are given, with their names. -/
def parts (x : Declaration) : List (List Char × List Char) :=
  ("version".toList, x.version) ::
    (x.encoding.toList.map ("encoding".toList, ·) ++
      x.standalone.toList.map ("standalone".toList, ·))

/-- What is written between the question marks. -/
def body (x : Declaration) : String :=
  String.ofList ("xml".toList ++ x.parts.flatMap AttributeList.written)

/-- No part has a double quote. -/
def Unquoted (x : Declaration) : Prop := ∀ part ∈ x.parts, '"' ∉ part.2

instance (x : Declaration) : Decidable x.Unquoted :=
  inferInstanceAs (Decidable (∀ part ∈ x.parts, '"' ∉ part.2))

variable {x : Declaration}

theorem isName_parts (x : Declaration) : ∀ part ∈ x.parts, IsName part.1 := by
  have hversion : IsName "version".toList := by decide
  have hencoding : IsName "encoding".toList := by decide
  have hstandalone : IsName "standalone".toList := by decide
  intro part hpart
  simp only [parts, List.mem_cons, List.mem_append, List.mem_map] at hpart
  rcases hpart with rfl | ⟨value, -, rfl⟩ | ⟨value, -, rfl⟩
  · exact hversion
  · exact hencoding
  · exact hstandalone

/-- The value that is taken for a name. -/
def given (raws : List RawAttribute) (name : String) : Option (List Char) :=
  (raws.find? (·.name = name.toList)).map RawAttribute.value

/-- The declaration that attributes give: the first one is the version, whatever else is there. -/
def ofAttributes (first : RawAttribute) (more : List RawAttribute) : Declaration :=
  ⟨first.value, given (first :: more) "encoding", given (first :: more) "standalone"⟩

theorem toList_body (x : Declaration) :
    x.body.toList = "xml".toList ++ x.parts.flatMap AttributeList.written := String.toList_ofList

theorem given_eq_of_parts {raws : List RawAttribute} {pairs : List (List Char × List Char)}
    (h : raws.map (fun raw => (raw.name, raw.value)) = pairs) (name : String) :
    given raws name = (pairs.find? (·.1 = name.toList)).map Prod.snd := by
  rw [← h, List.find?_map, Option.map_map]
  rfl

/-- How a part that is given is written. -/
def partText (name : String) : Option (List Char) → String
  | none => ""
  | some value => " " ++ name ++ "=\"" ++ String.ofList value ++ "\""

theorem body_eq (x : Declaration) :
    x.body = "xml version=\"" ++ String.ofList x.version ++ "\"" ++
      partText "encoding" x.encoding ++ partText "standalone" x.standalone := by
  obtain ⟨version, encoding, standalone⟩ := x
  apply String.toList_inj.1
  cases encoding <;> cases standalone <;>
    simp [toList_body, parts, partText, AttributeList.written]

theorem body_ofAttributes {first : RawAttribute} {more : List RawAttribute}
    {encoding standalone : Option RawAttribute}
    (hencoding : (first :: more).find? (·.name = "encoding".toList) = encoding)
    (hstandalone : (first :: more).find? (·.name = "standalone".toList) = standalone) :
    (ofAttributes first more).body = "xml version=\"" ++ String.ofList first.value ++ "\"" ++
      partText "encoding" (encoding.map RawAttribute.value) ++
      partText "standalone" (standalone.map RawAttribute.value) := by
  rw [body_eq, ofAttributes, given, given, hencoding, hstandalone]

theorem declarationBody_of_readable {first : RawAttribute} {more : List RawAttribute}
    (hlist : AttributeList.ofChars false 3 (cs.drop 3) = ⟨first :: more, none⟩)
    (hversion : first.name = "version".toList) :
    declarationBody cs = .ok (ofAttributes first more).body := by
  unfold declarationBody
  simp only [hlist, hversion, ne_eq, not_true_eq_false, if_false]
  rcases hencoding : (first :: more).find? (·.name = "encoding".toList) with _ | encoding <;>
    rcases hstandalone : (first :: more).find? (·.name = "standalone".toList) with _ | standalone
  all_goals
    rw [body_ofAttributes hencoding hstandalone, hencoding, hstandalone]
    rfl

/-- Whatever declaration is built is one that attributes give. -/
theorem exists_of_declarationBody {text : String} (h : declarationBody cs = .ok text) :
    ∃ first more fault, AttributeList.ofChars false 3 (cs.drop 3) = ⟨first :: more, fault⟩ ∧
      (ofAttributes first more).body = text := by
  unfold declarationBody at h
  rcases hlist : AttributeList.ofChars false 3 (cs.drop 3) with ⟨_ | ⟨first, more⟩, fault⟩
  · rw [hlist] at h
    cases fault <;> cases h
  · refine ⟨first, more, fault, rfl, ?_⟩
    simp only [hlist] at h
    split at h
    next => cases h
    next =>
      rcases hencoding : (first :: more).find? (·.name = "encoding".toList) with _ | encoding <;>
        rcases hstandalone : (first :: more).find? (·.name = "standalone".toList) with
          _ | standalone <;>
        rw [hencoding, hstandalone] at h <;>
        rw [body_ofAttributes hencoding hstandalone]
      -- A part that is not found is an error if the attributes end with an unreadable one.
      · cases fault <;> cases h
        rfl
      · cases fault <;> cases h
        rfl
      · cases fault <;> cases h
        rfl
      · cases h
        rfl

/-- A declaration is built anew from its own parts. -/
theorem declarationBody_body (h : x.Unquoted) : declarationBody x.body.toList = .ok x.body := by
  have hunique : false = true → (x.parts.map Prod.fst).Nodup := nofun
  obtain ⟨raws, hraws, hparts⟩ := AttributeList.ofChars_written x.isName_parts h hunique 3
  have hdrop : x.body.toList.drop 3 = x.parts.flatMap AttributeList.written := by
    rw [toList_body]
    rfl
  rw [← hdrop] at hraws
  obtain ⟨first, more, rfl, hfirst, hmore⟩ := List.map_eq_cons_iff.1 hparts
  obtain ⟨hversion, hvalue⟩ := Prod.mk.inj hfirst
  rw [declarationBody_of_readable hraws hversion]
  have hgiven : ofAttributes first more = x := by
    rw [ofAttributes, given_eq_of_parts hparts, given_eq_of_parts hparts, hvalue]
    obtain ⟨version, encoding, standalone⟩ := x
    cases encoding <;> cases standalone <;> rfl
  rw [hgiven]

end Declaration

/-! ## Where a declaration ends -/

namespace Bracket

variable {kind : Bracket} {seen body : List Char}

/-- No closing bracket inside split-off markup ends it. -/
theorem closes_of_split (h : kind.split seen cs = some (body, rest)) :
    ∃ taken, body = seen.reverse ++ taken ∧
      ∀ before after, taken = before ++ '>' :: after →
        kind.closes (before.reverse ++ seen) = false := by
  induction cs generalizing seen with
  | nil => cases h
  | cons c cs ih =>
    rw [split] at h
    split at h
    next =>
      cases h
      exact ⟨[], by simp, by simp⟩
    next hopen =>
      obtain ⟨taken, hbody, hinner⟩ := ih h
      refine ⟨c :: taken, by simpa using hbody, ?_⟩
      intro before after heq
      rcases List.cons_eq_append_iff.1 heq with ⟨rfl, hcons⟩ | ⟨before', rfl, htaken⟩
      · obtain ⟨rfl, -⟩ := List.cons.inj hcons
        simpa using hopen
      · simpa using hinner before' after htaken

theorem closes_instruction_iff (seen : List Char) :
    instruction.closes seen = true ↔ ['?'].reverse <+: seen := by
  cases seen with
  | nil => simp [closes]
  | cons c seen => simp [closes, List.cons_prefix_cons, eq_comm]

/-- The end of an instruction is nowhere inside it. -/
theorem not_infix_of_split (h : instruction.split [] cs = some (body, rest)) :
    ¬"?>".toList <:+: body := by
  obtain ⟨taken, rfl, hinner⟩ := closes_of_split h
  rintro ⟨before, after, heq⟩
  have hclosed := hinner (before ++ ['?']) after (by simpa using heq.symm)
  simp [closes] at hclosed

end Bracket

namespace AttributeList

theorem skipSpace_suffix (offset : Nat) (cs : List Char) : (skipSpace offset cs).2 <:+ cs := by
  induction cs generalizing offset with
  | nil => exact List.suffix_refl _
  | cons c cs ih =>
    rw [skipSpace]
    split
    · exact (ih _).trans (List.suffix_cons _ _)
    · exact List.suffix_refl _

theorem append_of_span {p : Char → Bool} {front back : List Char} (h : cs.span p = (front, back)) :
    front ++ back = cs := by
  rw [List.span_eq_takeWhile_dropWhile] at h
  cases h
  exact List.takeWhile_append_dropWhile

theorem infix_of_quoted {offset later : Nat} {value : List Char}
    (h : quoted offset cs = .ok (value, later, rest)) : value <:+: cs ∧ rest <:+ cs := by
  have hskip := skipSpace_suffix offset cs
  rw [quoted] at h
  split at h
  next => cases h
  next quote more heq =>
    rw [heq] at hskip
    split at h
    next =>
      rcases hspan : more.span (· ≠ quote) with ⟨front, _ | ⟨c, back⟩⟩
      · rw [hspan] at h
        cases h
      · rw [hspan] at h
        cases h
        have hmore : value ++ c :: rest = more := append_of_span hspan
        have hcs : more <:+ cs := (List.suffix_cons _ _).trans hskip
        rw [← hmore] at hcs
        refine ⟨(List.prefix_append _ _).isInfix.trans hcs.isInfix, ?_⟩
        exact ((List.suffix_cons _ _).trans (List.suffix_append _ _)).trans hcs
    next => cases h

/-- Every value that is read stands in the text. -/
theorem infix_of_mem_read {unique : Bool} {fuel offset : Nat} {known : List (List Char × Nat)}
    {a : RawAttribute} (h : a ∈ (read unique fuel known offset cs).attributes) :
    a.value <:+: cs := by
  induction fuel generalizing known offset cs with
  | zero => cases h
  | succ fuel ih =>
    have hskip := skipSpace_suffix offset cs
    rw [read] at h
    split at h
    next => cases h
    next start first more heq =>
      rw [heq] at hskip
      have hmore : (nameRest more).2 <:+ more := ⟨_, append_of_span rfl⟩
      have hequals := skipSpace_suffix (start + Text.byteLength (first :: (nameRest more).1))
        (nameRest more).2
      dsimp only at h
      split at h
      next after hafter =>
        rw [hafter] at hequals
        split at h
        next => cases h
        next =>
          split at h
          next => cases h
          next value later behind hquoted =>
            obtain ⟨hvalue, hbehind⟩ := infix_of_quoted hquoted
            have hcs : after <:+ cs := ((((List.suffix_cons _ _).trans hequals).trans hmore).trans
              (List.suffix_cons _ _)).trans hskip
            rcases List.mem_cons.1 h with rfl | h
            · exact hvalue.trans hcs.isInfix
            · exact (ih h).trans (hbehind.trans hcs).isInfix
      next => cases h

end AttributeList

/-! ## Declarations that have been read -/

/-- A pair of characters that differ from another one is on one side of it. -/
theorem infix_pair_append_cons_iff {a b c : Char} (ha : a ≠ c) (hb : b ≠ c) {xs ys : List Char} :
    [a, b] <:+: xs ++ c :: ys ↔ [a, b] <:+: xs ∨ [a, b] <:+: ys := by
  constructor
  · intro h
    rcases List.infix_append_iff.1 h with h | h | ⟨front, back, heq, hfront, hback⟩
    · exact .inl h
    · rcases List.infix_cons_iff.1 h with h | h
      · exact absurd (List.cons_prefix_cons.1 h).1 ha
      · exact .inr h
    · rcases List.prefix_cons_iff.1 hback with rfl | ⟨more, rfl, -⟩
      · rw [List.append_nil] at heq
        exact .inl (heq ▸ hfront.isInfix)
      · have hc : c ∈ [a, b] := heq ▸ List.mem_append_right _ List.mem_cons_self
        rcases List.mem_cons.1 hc with rfl | hc
        · exact absurd rfl ha
        · exact absurd (List.mem_singleton.1 hc).symm hb
  · rintro (h | h)
    · exact h.trans (List.prefix_append _ _).isInfix
    · exact h.trans ((List.suffix_cons _ _).trans (List.suffix_append _ _)).isInfix

theorem not_infix_written {parts : List (List Char × List Char)}
    (hnames : ∀ part ∈ parts, IsName part.1) (hvalues : ∀ part ∈ parts, ¬"?>".toList <:+: part.2) :
    ¬"?>".toList <:+: parts.flatMap AttributeList.written := by
  induction parts with
  | nil => simp
  | cons part parts ih =>
    obtain ⟨name, value⟩ := part
    have hrest := ih (fun part hpart => hnames part (List.mem_cons_of_mem _ hpart))
      (fun part hpart => hvalues part (List.mem_cons_of_mem _ hpart))
    have hname : ¬['?', '>'] <:+: name := fun h =>
      gt_notMem_of_isName (hnames _ List.mem_cons_self) (h.subset (by simp))
    have hvalue : ¬['?', '>'] <:+: value := hvalues _ List.mem_cons_self
    have hall : (AttributeList.written (name, value) ++ parts.flatMap AttributeList.written) =
        [] ++ ' ' :: (name ++ '=' :: ([] ++ '"' :: (value ++ '"' ::
          parts.flatMap AttributeList.written))) := by simp [AttributeList.written]
    rw [List.flatMap_cons, hall]
    simpa [infix_pair_append_cons_iff, List.infix_cons_iff, hname, hvalue] using hrest

/-- Every part that attributes give is the value of one of them. -/
theorem Declaration.exists_of_mem_parts {first : RawAttribute} {more : List RawAttribute}
    {part : List Char × List Char} (h : part ∈ (ofAttributes first more).parts) :
    ∃ a ∈ first :: more, a.value = part.2 := by
  simp only [parts, ofAttributes, given, List.mem_cons, List.mem_append, List.mem_map,
    Option.mem_toList, Option.map_eq_some_iff] at h
  rcases h with rfl | ⟨value, ⟨a, hfind, rfl⟩, rfl⟩ | ⟨value, ⟨a, hfind, rfl⟩, rfl⟩
  · exact ⟨first, List.mem_cons_self, rfl⟩
  · exact ⟨a, List.mem_of_find?_eq_some hfind, rfl⟩
  · exact ⟨a, List.mem_of_find?_eq_some hfind, rfl⟩

/-- The end of a declaration is not in one whose values stand in a text without it. -/
theorem Declaration.not_infix_body {x : Declaration} (hcs : ¬"?>".toList <:+: cs)
    (hparts : ∀ part ∈ x.parts, part.2 <:+: cs) : ¬"?>".toList <:+: x.body.toList := by
  have hvalues : ∀ part ∈ x.parts, ¬"?>".toList <:+: part.2 :=
    fun part hpart hinside => hcs (hinside.trans (hparts part hpart))
  have hwritten := not_infix_written x.isName_parts hvalues
  rw [toList_body]
  simpa [List.infix_cons_iff] using hwritten

namespace Reading

variable {position : Nat} {opened opened' : List String} {text : String}

theorem declaration_of_readInstruction {body : List Char}
    (h : readInstruction position body = .ok (.declaration text)) :
    declarationBody (body.drop 1).dropLast = .ok text := by
  rw [readInstruction] at h
  split at h
  next => cases h
  next =>
    dsimp only at h
    split at h
    next =>
      split at h
      next => cases h
      next hbody =>
        cases h
        exact hbody
    next => cases h

/-- Of all markup only an instruction is read as a declaration. -/
theorem declaration_of_interpret {kind : Bracket} {body : List Char}
    (h : interpret position opened body kind = .ok (.declaration text, opened')) :
    kind = .instruction ∧ declarationBody (body.drop 1).dropLast = .ok text := by
  cases kind with
  | instruction =>
    rw [interpret] at h
    cases hread : readInstruction position body with
    | error e => rw [hread] at h; cases h
    | ok event =>
      rw [hread] at h
      cases h
      exact ⟨rfl, declaration_of_readInstruction hread⟩
  | comment | cdata =>
    rw [interpret] at h
    split at h <;> cases h
  | doctype =>
    rw [interpret] at h
    split at h
    next => cases h
    next => split at h <;> cases h
  | endTag =>
    cases opened with
    | nil => cases h
    | cons expected outer =>
      rw [interpret, readEnd] at h
      split at h <;> cases h
  | startTag =>
    rw [interpret, readStart] at h
    split at h
    next => cases h
    next => cases h
    next => split at h <;> cases h

theorem declaration_of_readMarkup {next : Nat}
    (h : readMarkup position opened cs = .ok (.declaration text, opened', next, rest)) :
    ∃ inner, ¬"?>".toList <:+: inner ∧ declarationBody inner = .ok text := by
  rw [readMarkup] at h
  split at h
  next => cases h
  next kind hkind =>
    split at h
    next => cases h
    next body behind hsplit =>
      cases hevent : interpret position opened body kind with
      | error e => rw [hevent] at h; cases h
      | ok result =>
        obtain ⟨event, later⟩ := result
        rw [hevent] at h
        cases h
        obtain ⟨rfl, hbody⟩ := declaration_of_interpret hevent
        have hfront := List.dropLast_prefix (body.drop 1)
        have hinner : (body.drop 1).dropLast <:+: body :=
          hfront.isInfix.trans (List.drop_suffix 1 body).isInfix
        exact ⟨_, fun hend => Bracket.not_infix_of_split hsplit (hend.trans hinner), hbody⟩

/-- A declaration has been built from markup without the end of one inside. -/
theorem declaration_of_mem_read {fuel p : Nat}
    (h : (p, .declaration text) ∈ (read fuel position opened cs).events) :
    ∃ inner, ¬"?>".toList <:+: inner ∧ declarationBody inner = .ok text := by
  induction fuel generalizing position opened cs with
  | zero => cases h
  | succ fuel ih =>
    unfold read at h
    split at h
    next heq => cases heq
    next => cases h
    next fuel' position opened cs heq =>
      cases heq
      split at h
      next => cases h
      next event opened' next behind hmarkup =>
        rcases List.mem_cons.1 h with heq | h
        · cases heq
          exact declaration_of_readMarkup hmarkup
        · exact ih h
    next hfuel _ _ =>
      cases hfuel
      dsimp only at h
      split at h
      next => cases h
      next =>
        rcases List.mem_cons.1 h with heq | h
        · cases heq
        · exact ih h

end Reading

namespace Builder

variable {b c : Builder} {scope : Scope} {text : String}

@[simp] theorem put_declaration (b : Builder) (id : NodeId) (node : Node) (children : Forest) :
    (b.put id node children).declaration = b.declaration := by
  rw [put]
  split <;> rfl

theorem declaration_of_step {position : Nat} {event : Event}
    (h : b.step scope position event = .ok c) (hc : c.declaration = some text) :
    b.declaration = some text ∨ event = .declaration text := by
  have hstep := stepped scope b position event
  rw [h] at hstep
  cases hstep with
  | start | blank | aside => exact .inl hc
  | empty | leaf => exact .inl ((put_declaration b _ _ _).symm.trans hc)
  | stop =>
    rw [put_declaration] at hc
    exact .inl hc
  | declaration => exact .inr (congrArg _ (Option.some.inj hc))

theorem declaration_of_run {events : List (Nat × Event)} (h : b.run scope events = .ok c)
    (hc : c.declaration = some text) :
    b.declaration = some text ∨ ∃ p, (p, .declaration text) ∈ events := by
  induction events generalizing b with
  | nil => cases h; exact .inl hc
  | cons piece events ih =>
    obtain ⟨position, event⟩ := piece
    rw [run] at h
    split at h
    next => cases h
    next hstep =>
      rcases ih h with hb | ⟨p, hp⟩
      · rcases declaration_of_step hstep hb with hb | rfl
        · exact .inl hb
        · exact .inr ⟨position, List.mem_cons_self⟩
      · exact .inr ⟨p, List.mem_cons_of_mem _ hp⟩

end Builder

namespace Document

/-- A declaration that some document has been read with, and whose parts have no double quote. -/
def Declared (body : String) : Prop :=
  (∃ text d, parse text = .ok d ∧ d.declaration = some body) ∧
    ∃ x : Declaration, x.body = body ∧ x.Unquoted

variable {body : String}

theorem Declared.endless (h : Declared body) : ¬"?>".toList <:+: body.toList := by
  obtain ⟨⟨text, d, hd, hbody⟩, -⟩ := h
  obtain ⟨b, root, node, children, hbuild, -, rfl⟩ := exists_of_reading hd
  obtain ⟨hrun, -⟩ := Builder.run_of_build hbuild
  rcases Builder.declaration_of_run hrun hbody with hnone | ⟨p, hp⟩
  · cases hnone
  · obtain ⟨inner, hend, hinner⟩ := Reading.declaration_of_mem_read hp
    obtain ⟨first, more, fault, hlist, rfl⟩ := Declaration.exists_of_declarationBody hinner
    apply Declaration.not_infix_body hend
    intro part hpart
    obtain ⟨a, ha, hvalue⟩ := Declaration.exists_of_mem_parts hpart
    have hmem : a ∈ (AttributeList.ofChars false 3 (inner.drop 3)).attributes := by
      rw [hlist]
      exact ha
    rw [← hvalue]
    exact (AttributeList.infix_of_mem_read hmem).trans (List.drop_suffix _ _).isInfix

/-- Such a declaration is read back. -/
theorem Declared.reads (h : Declared body) (opened : List String) (rest : List Char) :
    Reading.Reads opened ('<' :: ('?' :: body.toList ++ ['?'] ++ '>' :: rest)) [.declaration body]
      opened rest := by
  have hend := h.endless
  obtain ⟨-, x, rfl, hx⟩ := h
  have hkind : Bracket.ofChars ('?' :: x.body.toList ++ ['?'] ++ '>' :: rest) =
      .ok .instruction := rfl
  apply Reading.Reads.markup hkind
  · apply Bracket.split_of_unmarked Bracket.closes_instruction_iff
    · intro hinside
      have hinner := Bracket.infix_of_append (by decide) hinside
      rcases List.infix_cons_iff.1 hinner with hfirst | hlater
      · rw [x.toList_body] at hfirst
        simp at hfirst
      · exact hend hlater
    · exact List.suffix_append _ _
  · intro position
    have hinner : (('?' :: x.body.toList ++ ['?']).drop 1).dropLast = x.body.toList := by simp
    have hxml : x.body.toList.take 3 = "xml".toList &&
        (x.body.toList.drop 3).head?.all isTagSpace := by
      rw [x.toList_body]
      rfl
    rw [Reading.interpret, Reading.readInstruction, if_neg (by simp), hinner]
    dsimp only
    rw [if_pos hxml, Declaration.declarationBody_body hx]
    rfl

end Document

end MailMerge.Xml
