import VersionedXml.Proofs.Entity.Runs
import VersionedXml.Proofs.Tree.Growth

/-!
# Scanning markup in normal form

Markup in normal form is read back piece by piece: a name up to the byte that ends it, the
attributes of a tag, a whole tag, an enclosed section.  Each piece is scanned without regard to what
follows it, so the pieces can be put together in any order.
-/

namespace VersionedXml

def Byte.isNameByte (b : UInt8) : Bool := !Byte.isSpace b && b != Byte.greater

namespace Bytes

/-- The name of an opening tag: it is not mistaken for a closing tag or for an enclosed section. -/
structure IsTagName (name : Bytes) : Prop where
  ne_nil : name ≠ []
  bytes : ∀ b ∈ name, Byte.isNameByte b = true
  head? : name.head? ≠ some Byte.slash
  opening : ∀ kind : Enclosure, ¬ kind.opening <+: Byte.less :: name

/-- The name of an attribute: a `=` can only be its first byte. -/
structure IsAttributeName (name : Bytes) : Prop where
  ne_nil : name ≠ []
  bytes : ∀ b ∈ name, Byte.isNameByte b = true
  head? : name.head? ≠ some Byte.slash
  equals : Byte.equals ∉ name.tail

end Bytes

namespace ScanState

variable {maxAttributes : Nat}

theorem isSpace_eq_false {b : UInt8} (hb : Byte.isNameByte b = true) : Byte.isSpace b = false := by
  simp only [Byte.isNameByte, Bool.and_eq_true, Bool.not_eq_true'] at hb
  exact hb.1

theorem ne_greater {b : UInt8} (hb : Byte.isNameByte b = true) : b ≠ Byte.greater := by
  simp only [Byte.isNameByte, Bool.and_eq_true, bne_iff_ne] at hb
  exact hb.2

/-- Inside a name no tag ends, unless the last byte of the name is a `/` before a `>`. -/
theorem tagEnd_eq_none {b : UInt8} {name : Bytes} (rest : Bytes)
    (hbytes : ∀ c ∈ b :: name, Byte.isNameByte c = true)
    (hlast : (b :: name).getLast? = some Byte.slash → rest.head? ≠ some Byte.greater) :
    TagEnd.of? (b :: (name ++ rest)) = none := by
  have hslash : ¬ (b = Byte.slash ∧ (name ++ rest).head? = some Byte.greater) := by
    rintro ⟨rfl, hhead⟩
    cases name with
    | nil => exact hlast rfl hhead
    | cons c name =>
        cases hhead
        exact ne_greater (hbytes _ (List.mem_cons_of_mem _ List.mem_cons_self)) rfl
  rw [TagEnd.of?, if_neg (ne_greater (hbytes b List.mem_cons_self)), if_neg hslash]

/-- The scanner passes over the name of a tag. -/
theorem leads_tagName {name : Bytes} (rest : Bytes)
    (hbytes : ∀ b ∈ name, Byte.isNameByte b = true)
    (hlast : name.getLast? = some Byte.slash → rest.head? ≠ some Byte.greater) (head : TagHead)
    (position : Nat) :
    Leads maxAttributes ⟨.tagName head, ⟨position, name ++ rest⟩⟩ []
      ⟨.tagName head, ⟨position + name.length, rest⟩⟩ := by
  induction name generalizing position with
  | nil => exact Leads.refl _
  | cons b name ih =>
      have hstep : step maxAttributes ⟨.tagName head, ⟨position, b :: (name ++ rest)⟩⟩ b
          ⟨position + 1, name ++ rest⟩ =
            .ok (.silent (.tagName head) ⟨position + 1, name ++ rest⟩) := by
        simp [step, stepTagName, isSpace_eq_false (hbytes b List.mem_cons_self),
          tagEnd_eq_none rest hbytes hlast]
      have hrest := ih (fun c hc => hbytes c (List.mem_cons_of_mem _ hc)) (fun hslash => hlast ?_)
        (position + 1)
      · rw [List.length_cons, ← Nat.add_assoc, Nat.add_right_comm]
        exact (Leads.of_step hstep).silent_trans hrest
      · cases name with
        | nil => cases hslash
        | cons c name => exact hslash

/-- The scanner passes over the name of an attribute. -/
theorem leads_attributeName {name : Bytes} (rest : Bytes)
    (hbytes : ∀ b ∈ name, Byte.isNameByte b = true) (hequals : Byte.equals ∉ name)
    (hlast : rest.head? ≠ some Byte.greater) (tag : Tag) (start position : Nat) :
    Leads maxAttributes ⟨.attributeName tag start, ⟨position, name ++ rest⟩⟩ []
      ⟨.attributeName tag start, ⟨position + name.length, rest⟩⟩ := by
  induction name generalizing position with
  | nil => exact Leads.refl _
  | cons b name ih =>
      obtain ⟨hne, hnot⟩ := List.ne_and_not_mem_of_not_mem_cons hequals
      have hstep : step maxAttributes ⟨.attributeName tag start, ⟨position, b :: (name ++ rest)⟩⟩ b
          ⟨position + 1, name ++ rest⟩ =
            .ok (.silent (.attributeName tag start) ⟨position + 1, name ++ rest⟩) := by
        simp [step, stepAttributeName, isSpace_eq_false (hbytes b List.mem_cons_self), hne.symm,
          tagEnd_eq_none rest hbytes fun _ => hlast]
      rw [List.length_cons, ← Nat.add_assoc, Nat.add_right_comm]
      exact (Leads.of_step hstep).silent_trans
        (ih (fun c hc => hbytes c (List.mem_cons_of_mem _ hc)) hnot (position + 1))

/-- The scanner passes over a quoted value and its closing quote. -/
theorem leads_quoted {value : Bytes} {quote : UInt8} (hvalue : quote ∉ value) {tag : Tag}
    (hroom : tag.attributes.size < maxAttributes) (name : Span) (position : Nat) (rest : Bytes) :
    Leads maxAttributes
      ⟨.value tag name (some quote) position, ⟨position, value ++ quote :: rest⟩⟩ []
      ⟨.tag (tag.enlarge ⟨name, ⟨position, position + value.length⟩⟩),
        ⟨position + value.length + 1, rest⟩⟩ := by
  have hfind : (⟨position, value ++ quote :: rest⟩ : Cursor).find? [quote] =
      some (position + value.length) := by
    refine (Bytes.search?_append_of_notMem hvalue position (quote :: rest)).trans ?_
    simp [Bytes.search?, List.isPrefixOf]
  have hadvance : (⟨position, value ++ quote :: rest⟩ : Cursor).advance
      (position + value.length + 1 - position) = ⟨position + value.length + 1, rest⟩ := by
    rw [show position + value.length + 1 - position = value.length + 1 by omega, Cursor.advance_append]
    rfl
  obtain ⟨b, more, hmore⟩ := List.exists_cons_of_ne_nil
    (List.append_ne_nil_of_right_ne_nil value (List.cons_ne_nil quote rest))
  rw [hmore] at hfind hadvance ⊢
  refine Leads.of_silent_step ?_
  simp only [step, stepQuoted, hfind, Tag.addAttribute_of_lt hroom, hadvance]
  rfl

/-- The scanner passes over a `=` and the value behind it, which is in double quotes. -/
theorem leads_assigned {value : Bytes} (hvalue : Byte.doubleQuote ∉ value) {tag : Tag}
    (hroom : tag.attributes.size < maxAttributes) (start position : Nat) (rest : Bytes) :
    Leads maxAttributes
      ⟨.attributeName tag start, ⟨position, Byte.equals :: Byte.doubleQuote ::
        (value ++ Byte.doubleQuote :: rest)⟩⟩ []
      ⟨.tag (tag.enlarge ⟨⟨start, position⟩, ⟨position + 2, position + 2 + value.length⟩⟩),
        ⟨position + 2 + value.length + 1, rest⟩⟩ := by
  have hequals : Leads maxAttributes
      ⟨.attributeName tag start, ⟨position, Byte.equals :: Byte.doubleQuote ::
        (value ++ Byte.doubleQuote :: rest)⟩⟩ []
      ⟨.beforeValue tag ⟨start, position⟩,
        ⟨position + 1, Byte.doubleQuote :: (value ++ Byte.doubleQuote :: rest)⟩⟩ :=
    Leads.of_silent_step rfl
  have hquote : Leads maxAttributes
      ⟨.beforeValue tag ⟨start, position⟩,
        ⟨position + 1, Byte.doubleQuote :: (value ++ Byte.doubleQuote :: rest)⟩⟩ []
      ⟨.value tag ⟨start, position⟩ (some Byte.doubleQuote) (position + 2),
        ⟨position + 2, value ++ Byte.doubleQuote :: rest⟩⟩ :=
    Leads.of_silent_step rfl
  exact hequals.silent_trans (hquote.silent_trans
    (leads_quoted hvalue hroom ⟨start, position⟩ (position + 2) rest))

/-- One attribute in normal form, without the blank before it. -/
theorem leads_attribute {name value : Bytes} (hname : name.IsAttributeName)
    (hvalue : Byte.doubleQuote ∉ value) {tag : Tag} (hopening : tag.head.closing = false)
    (hroom : tag.attributes.size < maxAttributes) (position : Nat) (rest : Bytes) :
    Leads maxAttributes
      ⟨.tag tag, ⟨position, name ++ Byte.equals :: Byte.doubleQuote ::
        (value ++ Byte.doubleQuote :: rest)⟩⟩ []
      ⟨.tag (tag.enlarge ⟨⟨position, position + name.length⟩,
        ⟨position + name.length + 2, position + name.length + 2 + value.length⟩⟩),
        ⟨position + name.length + 2 + value.length + 1, rest⟩⟩ := by
  generalize hassigned : Byte.equals :: Byte.doubleQuote :: (value ++ Byte.doubleQuote :: rest) =
    assigned
  have hgoesOn : assigned.head? ≠ some Byte.greater := by
    rw [← hassigned]
    exact fun heq => absurd (Option.some.inj heq) (by decide)
  obtain ⟨b, others, rfl⟩ := List.exists_cons_of_ne_nil hname.ne_nil
  have hslash : b ≠ Byte.slash := fun heq => hname.head? (congrArg some heq)
  have hbegin : Leads maxAttributes ⟨.tag tag, ⟨position, b :: (others ++ assigned)⟩⟩ []
      ⟨.attributeName tag position, ⟨position + 1, others ++ assigned⟩⟩ := by
    refine Leads.of_silent_step ?_
    have hspace := isSpace_eq_false (hname.bytes b List.mem_cons_self)
    have hend := tagEnd_eq_none assigned hname.bytes fun _ => hgoesOn
    simp [step, stepTag, hend, hspace, hslash, hopening]
  have hinside : Leads maxAttributes _ [] _ := leads_attributeName assigned
    (fun c hc => hname.bytes c (List.mem_cons_of_mem b hc)) hname.equals hgoesOn tag position
    (position + 1)
  have hclosed := leads_assigned hvalue hroom position (position + 1 + others.length) rest
  rw [hassigned] at hclosed
  rw [List.length_cons, show position + (others.length + 1) = position + 1 + others.length by omega]
  exact hbegin.silent_trans (hinside.silent_trans hclosed)

/-- Where the attributes of a tag in normal form stand, if the first blank stands at `position`. -/
def placePairs (position : Nat) : List (Bytes × Bytes) → List Attribute
  | [] => []
  | (name, value) :: rest =>
      let nameStop := position + 1 + name.length
      let valueStop := nameStop + 2 + value.length
      ⟨⟨position + 1, nameStop⟩, ⟨nameStop + 2, valueStop⟩⟩ :: placePairs (valueStop + 1) rest

theorem length_renderAttributes_cons (name value : Bytes) (pairs : List (Bytes × Bytes)) :
    (Tree.renderAttributes ((name, value) :: pairs)).length =
      1 + name.length + 2 + value.length + 1 + (Tree.renderAttributes pairs).length := by
  simp only [Tree.renderAttributes, List.flatMap_cons, List.length_append, List.length_cons,
    List.length_nil]

/-- All attributes of a tag in normal form are read. -/
theorem leads_attributes {pairs : List (Bytes × Bytes)}
    (hpairs : ∀ pair ∈ pairs, pair.1.IsAttributeName ∧ Byte.doubleQuote ∉ pair.2) {tag : Tag}
    (hopening : tag.head.closing = false)
    (hroom : tag.attributes.size + pairs.length ≤ maxAttributes) (position : Nat) (rest : Bytes) :
    Leads maxAttributes ⟨.tag tag, ⟨position, Tree.renderAttributes pairs ++ rest⟩⟩ []
      ⟨.tag { tag with attributes := tag.attributes ++ placePairs position pairs },
        ⟨position + (Tree.renderAttributes pairs).length, rest⟩⟩ := by
  induction pairs generalizing tag position with
  | nil =>
      have hnone : tag.attributes ++ placePairs position [] = tag.attributes := by
        simp [placePairs]
      rw [hnone]
      exact Leads.refl _
  | cons pair pairs ih =>
      obtain ⟨name, value⟩ := pair
      obtain ⟨hname, hvalue⟩ := hpairs _ List.mem_cons_self
      rw [List.length_cons] at hroom
      have hbytes : Tree.renderAttributes ((name, value) :: pairs) ++ rest =
          Byte.blank :: (name ++ Byte.equals :: Byte.doubleQuote ::
            (value ++ Byte.doubleQuote :: (Tree.renderAttributes pairs ++ rest))) := by
        simp [Tree.renderAttributes]
      have hplaced : tag.attributes ++ placePairs position ((name, value) :: pairs) =
          tag.attributes.push ⟨⟨position + 1, position + 1 + name.length⟩,
            ⟨position + 1 + name.length + 2, position + 1 + name.length + 2 + value.length⟩⟩ ++
              placePairs (position + 1 + name.length + 2 + value.length + 1) pairs := by
        simp [placePairs]
      rw [hbytes, hplaced, length_renderAttributes_cons]
      simp only [← Nat.add_assoc]
      have hblank : Leads maxAttributes
          ⟨.tag tag, ⟨position, Byte.blank :: (name ++ Byte.equals :: Byte.doubleQuote ::
            (value ++ Byte.doubleQuote :: (Tree.renderAttributes pairs ++ rest)))⟩⟩ []
          ⟨.tag tag, ⟨position + 1, name ++ Byte.equals :: Byte.doubleQuote ::
            (value ++ Byte.doubleQuote :: (Tree.renderAttributes pairs ++ rest))⟩⟩ :=
        Leads.of_silent_step rfl
      refine hblank.silent_trans ((leads_attribute hname hvalue hopening (by omega) (position + 1)
        (Tree.renderAttributes pairs ++ rest)).silent_trans (ih ?_ ?_ ?_ _))
      · exact fun other hother => hpairs other (List.mem_cons_of_mem _ hother)
      · exact hopening
      · rw [Tag.size_enlarge]
        omega

/-- The spans of the attributes denote their names and values. -/
theorem slice_placePairs {input : Buffer} {pairs : List (Bytes × Bytes)} {before after : Bytes}
    {position : Nat} (hinput : input.toList = before ++ Tree.renderAttributes pairs ++ after)
    (hposition : position = before.length) :
    ((placePairs position pairs).map fun pair => (pair.name.slice input, pair.value.slice input)) =
      pairs := by
  induction pairs generalizing before position with
  | nil => rfl
  | cons pair pairs ih =>
      obtain ⟨name, value⟩ := pair
      have hname : input.toList = (before ++ [Byte.blank]) ++ (name ++ (Byte.equals ::
          Byte.doubleQuote :: (value ++ Byte.doubleQuote ::
            (Tree.renderAttributes pairs ++ after)))) := by
        rw [hinput]
        simp [Tree.renderAttributes]
      have hvalue : input.toList = (before ++ [Byte.blank] ++ name ++
          [Byte.equals, Byte.doubleQuote]) ++ (value ++ Byte.doubleQuote ::
            (Tree.renderAttributes pairs ++ after)) := by
        rw [hname]
        simp
      have hothers : input.toList = (before ++ [Byte.blank] ++ name ++
          [Byte.equals, Byte.doubleQuote] ++ value ++ [Byte.doubleQuote]) ++
            Tree.renderAttributes pairs ++ after := by
        rw [hvalue]
        simp
      simp only [placePairs, List.map_cons]
      rw [ih hothers (by simp [hposition]; omega),
        Span.slice_eq_of_append hname (by simp [hposition]) (by simp [hposition]),
        Span.slice_eq_of_append hvalue (by simp [hposition]; omega) (by simp [hposition]; omega)]

/-! ## Tags and enclosed sections -/

/-- At a `<` the text before it is complete and markup begins. -/
theorem leads_less (start position : Nat) (rest : Bytes) :
    Leads maxAttributes ⟨.text start, ⟨position, Byte.less :: rest⟩⟩ (textEntity start position)
      ⟨(openMarkup ⟨position, Byte.less :: rest⟩).1,
        (⟨position, Byte.less :: rest⟩ : Cursor).advance
          (openMarkup ⟨position, Byte.less :: rest⟩).2⟩ := by
  have hfind : (⟨position, Byte.less :: rest⟩ : Cursor).find? [Byte.less] = some position := by
    simp [Cursor.find?, Bytes.search?, List.isPrefixOf]
  have hstep : stepText start ⟨position, Byte.less :: rest⟩ =
      ⟨⟨(openMarkup ⟨position, Byte.less :: rest⟩).1,
        (⟨position, Byte.less :: rest⟩ : Cursor).advance
          (openMarkup ⟨position, Byte.less :: rest⟩).2⟩, textEntity start position⟩ := by
    simp [stepText, hfind, Cursor.advance]
  have hmove : step maxAttributes ⟨.text start, ⟨position, Byte.less :: rest⟩⟩ Byte.less
      ⟨position + 1, rest⟩ = .ok _ := congrArg Except.ok hstep
  exact Leads.of_step hmove

theorem isNameByte_of_mem_opening {kind : Enclosure} {b : UInt8} (hb : b ∈ kind.opening) :
    Byte.isNameByte b = true := by
  have hall : ∀ kind : Enclosure, kind.opening.all Byte.isNameByte = true := by
    intro kind
    cases kind <;> decide
  exact List.all_eq_true.mp (hall kind) b hb

theorem prefix_of_prefix_append_cons {first before rest : Bytes} {b : UInt8}
    (hbegins : first <+: before ++ b :: rest) (hb : b ∉ first) : first <+: before := by
  have hupto : before ++ [b] <+: before ++ b :: rest := ⟨rest, by simp⟩
  rcases List.prefix_or_prefix_of_prefix hbegins hupto with hshort | hlong
  · rcases List.prefix_concat_iff.mp hshort with rfl | hbefore
    · exact absurd (List.mem_append_right _ List.mem_cons_self) hb
    · exact hbefore
  · exact absurd (hlong.subset (List.mem_append_right _ List.mem_cons_self)) hb

/-- A `<` before the name of a tag begins an opening tag. -/
theorem openMarkup_tagName {name rest : Bytes} (hname : name.IsTagName) {b : UInt8}
    (hb : Byte.isNameByte b = false) (position : Nat) :
    openMarkup ⟨position, Byte.less :: (name ++ b :: rest)⟩ = (.tagName ⟨position, false⟩, 1) := by
  have hnone : ∀ kind : Enclosure,
      ¬ kind.opening.isPrefixOf (Byte.less :: (name ++ b :: rest)) = true := by
    intro kind hbegins
    refine hname.opening kind (prefix_of_prefix_append_cons
      (List.isPrefixOf_iff_prefix.mp hbegins) fun hmem => ?_)
    rw [isNameByte_of_mem_opening hmem] at hb
    cases hb
  have hslash : ¬ (⟨position, Byte.less :: (name ++ b :: rest)⟩ : Cursor).peekAt? 1 =
      some Byte.slash := by
    obtain ⟨c, others, rfl⟩ := List.exists_cons_of_ne_nil hname.ne_nil
    exact hname.head?
  rw [openMarkup, if_neg (hnone _), if_neg (hnone _), if_neg (hnone _), if_neg hslash]

theorem tagEnd_eq_none_of_isSpace {b : UInt8} (hspace : Byte.isSpace b = true) (rest : Bytes) :
    TagEnd.of? (b :: rest) = none := by
  have hgreater : b ≠ Byte.greater := by
    rintro rfl
    revert hspace
    decide
  have hslash : b ≠ Byte.slash := by
    rintro rfl
    revert hspace
    decide
  simp [TagEnd.of?, hgreater, hslash]

/-- The end of a name hands over to the tag. -/
theorem leads_endOfName {head : TagHead} {position : Nat} (hname : head.nameStart < position)
    {b : UInt8} {rest : Bytes}
    (hend : Byte.isSpace b = true ∨ (TagEnd.of? (b :: rest)).isSome = true) :
    Leads maxAttributes ⟨.tagName head, ⟨position, b :: rest⟩⟩ []
      ⟨.tag ⟨head, ⟨head.nameStart, position⟩, #[]⟩, ⟨position, b :: rest⟩⟩ := by
  have hempty : (⟨head.nameStart, position⟩ : Span).isEmpty = false := by
    simp [Span.isEmpty, hname]
  by_cases hspace : Byte.isSpace b = true
  · have hnone := tagEnd_eq_none_of_isSpace hspace rest
    have hstep : step maxAttributes ⟨.tagName head, ⟨position, b :: rest⟩⟩ b ⟨position + 1, rest⟩ =
        .ok (.silent (.tag ⟨head, ⟨head.nameStart, position⟩, #[]⟩) ⟨position + 1, rest⟩) := by
      simp [step, stepTagName, hspace, hempty]
    refine Leads.of_same_step hstep ?_
    simp [step, stepTag, hnone, hspace]
  · obtain ⟨ending, hending⟩ := Option.isSome_iff_exists.mp (hend.resolve_left hspace)
    have hstep : step maxAttributes ⟨.tagName head, ⟨position, b :: rest⟩⟩ b ⟨position + 1, rest⟩ =
        .ok (.finishTag ⟨head, ⟨head.nameStart, position⟩, #[]⟩ ending ⟨position, b :: rest⟩) := by
      simp [step, stepTagName, hspace, hempty, hending]
    refine Leads.of_same_step hstep ?_
    simp [step, stepTag, hending]

theorem leads_finishTag {position : Nat} {b : UInt8} {rest : Bytes} {ending : TagEnd}
    (hending : TagEnd.of? (b :: rest) = some ending) (tag : Tag) :
    Leads maxAttributes ⟨.tag tag, ⟨position, b :: rest⟩⟩
      (tag.entities ending (position + ending.width))
      ⟨.text (position + ending.width),
        (⟨position, b :: rest⟩ : Cursor).advance ending.width⟩ := by
  have hstep : step maxAttributes ⟨.tag tag, ⟨position, b :: rest⟩⟩ b ⟨position + 1, rest⟩ =
      .ok (.finishTag tag ending ⟨position, b :: rest⟩) := by
    simp [step, stepTag, hending]
  exact Leads.of_step hstep

def openingTag (name : Bytes) (pairs : List (Bytes × Bytes)) : Bytes :=
  Byte.less :: (name ++ (Tree.renderAttributes pairs ++ [Byte.greater]))

def closingTag (name : Bytes) : Bytes :=
  Byte.less :: Byte.slash :: (name ++ [Byte.greater])

/-- An opening tag in normal form. -/
theorem leads_opening {name : Bytes} {pairs : List (Bytes × Bytes)} (hname : name.IsTagName)
    (hlast : pairs = [] → name.getLast? ≠ some Byte.slash)
    (hpairs : ∀ pair ∈ pairs, pair.1.IsAttributeName ∧ Byte.doubleQuote ∉ pair.2)
    (hroom : pairs.length ≤ maxAttributes) (start position : Nat) (rest : Bytes) :
    Leads maxAttributes ⟨.text start, ⟨position, openingTag name pairs ++ rest⟩⟩
      (textEntity start position ++
        [⟨.opened ⟨position + 1, position + 1 + name.length⟩
          (placePairs (position + 1 + name.length) pairs) false,
          ⟨position, position + (openingTag name pairs).length⟩⟩])
      ⟨.text (position + (openingTag name pairs).length),
        ⟨position + (openingTag name pairs).length, rest⟩⟩ := by
  have hlength : 0 < name.length := List.length_pos_iff.mpr hname.ne_nil
  have hstop : position + (openingTag name pairs).length =
      position + 1 + name.length + (Tree.renderAttributes pairs).length + 1 := by
    simp only [openingTag, List.length_cons, List.length_append, List.length_nil]
    omega
  have hbytes : openingTag name pairs ++ rest =
      Byte.less :: (name ++ (Tree.renderAttributes pairs ++ Byte.greater :: rest)) := by
    simp [openingTag]
  -- Behind the name comes the blank of the first attribute, or the end of the tag.
  obtain ⟨b, more, hmore, hend, hb, hslash⟩ : ∃ b more,
      Tree.renderAttributes pairs ++ Byte.greater :: rest = b :: more ∧
        (Byte.isSpace b = true ∨ (TagEnd.of? (b :: more)).isSome = true) ∧
        Byte.isNameByte b = false ∧
        (name.getLast? = some Byte.slash → (b :: more).head? ≠ some Byte.greater) := by
    cases pairs with
    | nil => exact ⟨Byte.greater, rest, rfl, .inr rfl, rfl, fun hslash => absurd hslash (hlast rfl)⟩
    | cons pair pairs =>
        exact ⟨Byte.blank, _, rfl, .inl rfl, rfl,
          fun _ heq => absurd (Option.some.inj heq) (by decide)⟩
  have hless : Leads maxAttributes _ _ _ := leads_less start position (name ++ b :: more)
  rw [openMarkup_tagName hname hb] at hless
  have hnamed : Leads maxAttributes _ [] _ :=
    leads_tagName (b :: more) hname.bytes hslash ⟨position, false⟩ (position + 1)
  have hended : Leads maxAttributes
      ⟨.tagName ⟨position, false⟩, ⟨position + 1 + name.length, b :: more⟩⟩ []
      ⟨.tag ⟨⟨position, false⟩, ⟨position + 1, position + 1 + name.length⟩, #[]⟩,
        ⟨position + 1 + name.length, b :: more⟩⟩ :=
    leads_endOfName (Nat.lt_add_of_pos_right hlength) hend
  rw [← hmore] at hless hnamed hended
  have hread := hended.silent_trans (leads_attributes hpairs rfl (by simpa using hroom) _ _)
  have hfinished := hread.silent_trans (leads_finishTag (by rfl) _)
  simp only [Tag.entities, TagEnd.width] at hfinished
  have hall := hless.trans (hnamed.silent_trans hfinished)
  rw [hstop, hbytes]
  simpa [Cursor.advance] using hall

/-- A closing tag without anything between its name and its ending. -/
theorem leads_closeTag {name : Bytes} (hname : name ≠ [])
    (hbytes : ∀ b ∈ name, Byte.isNameByte b = true) {b : UInt8} {rest : Bytes} {ending : TagEnd}
    (hending : TagEnd.of? (b :: rest) = some ending)
    (hlast : name.getLast? = some Byte.slash → b ≠ Byte.greater) (start position : Nat) :
    Leads maxAttributes
      ⟨.text start, ⟨position, Byte.less :: Byte.slash :: (name ++ b :: rest)⟩⟩
      (textEntity start position ++
        [⟨.closed ⟨position + 2, position + 2 + name.length⟩ false,
          ⟨position, position + 2 + name.length + ending.width⟩⟩])
      ⟨.text (position + 2 + name.length + ending.width),
        (⟨position + 2 + name.length, b :: rest⟩ : Cursor).advance ending.width⟩ := by
  have hless : Leads maxAttributes _ _ _ :=
    leads_less start position (Byte.slash :: (name ++ b :: rest))
  have hopen : openMarkup ⟨position, Byte.less :: Byte.slash :: (name ++ b :: rest)⟩ =
      (.tagName ⟨position, true⟩, 2) := rfl
  have hnamed : Leads maxAttributes _ [] _ := leads_tagName (b :: rest) hbytes
    (fun hslash heq => hlast hslash (Option.some.inj heq)) ⟨position, true⟩ (position + 2)
  have hended : Leads maxAttributes
      ⟨.tagName ⟨position, true⟩, ⟨position + 2 + name.length, b :: rest⟩⟩ []
      ⟨.tag ⟨⟨position, true⟩, ⟨position + 2, position + 2 + name.length⟩, #[]⟩,
        ⟨position + 2 + name.length, b :: rest⟩⟩ :=
    leads_endOfName (Nat.lt_add_of_pos_right (List.length_pos_iff.mpr hname))
      (.inr (by rw [hending]; rfl))
  rw [hopen] at hless
  exact hless.trans (hnamed.silent_trans (hended.silent_trans (leads_finishTag hending _)))

/-- A closing tag in normal form.  If its name ends in `/`, that byte is taken for a part of the
ending, and the tag closes all the same. -/
theorem leads_closing {name : Bytes} (hname : name.IsTagName) (start position : Nat)
    (rest : Bytes) :
    ∃ span, Leads maxAttributes ⟨.text start, ⟨position, closingTag name ++ rest⟩⟩
      (textEntity start position ++
        [⟨.closed span false, ⟨position, position + (closingTag name).length⟩⟩])
      ⟨.text (position + (closingTag name).length),
        ⟨position + (closingTag name).length, rest⟩⟩ := by
  have hstop : position + (closingTag name).length = position + 2 + name.length + 1 := by
    simp only [closingTag, List.length_cons, List.length_append, List.length_nil]
    omega
  have hbytes : closingTag name ++ rest =
      Byte.less :: Byte.slash :: (name ++ Byte.greater :: rest) := by
    simp [closingTag]
  rw [hstop, hbytes]
  by_cases hslash : name.getLast? = some Byte.slash
  · obtain ⟨first, rfl⟩ := List.getLast?_eq_some_iff.mp hslash
    have hfirst : first ≠ [] := by
      rintro rfl
      exact hname.head? rfl
    have hclosed : Leads maxAttributes _ _ _ := leads_closeTag hfirst
      (fun b hb => hname.bytes b (List.mem_append_left _ hb))
      (show TagEnd.of? (Byte.slash :: Byte.greater :: rest) = some .selfClosing from rfl)
      (fun _ => by decide) start position
    rw [List.length_append, List.append_assoc]
    exact ⟨_, hclosed⟩
  · exact ⟨_, leads_closeTag hname.ne_nil hname.bytes
      (show TagEnd.of? (Byte.greater :: rest) = some .plain from rfl)
      (fun hlast => absurd hlast hslash) start position⟩

/-- The ending of a section that does not contain it comes first where the section ends. -/
theorem not_prefix_ending {kind : Enclosure} {left right after : Bytes}
    (hcontent : ¬ kind.ending <:+: left ++ right) (hright : right ≠ []) :
    ¬ kind.ending <+: right ++ kind.ending ++ after := by
  intro hbegins
  by_cases hlong : kind.ending.length ≤ right.length
  · rw [List.append_assoc] at hbegins
    have hinside := List.prefix_of_prefix_length_le hbegins (List.prefix_append right _) hlong
    exact hcontent (hinside.isInfix.trans (List.suffix_append left right).isInfix)
  · -- A shorter piece would have to hold the `>` of the ending before its end.
    match right with
    | [b] => cases kind <;> simp [Enclosure.ending] at hbegins
    | [b, c] => cases kind <;> simp [Enclosure.ending] at hbegins hlong
    | b :: c :: d :: more => cases kind <;> simp [Enclosure.ending] at hlong

/-- The content of an enclosed section, and its ending. -/
theorem leads_content {kind : Enclosure} {content : Bytes} (hcontent : ¬ kind.ending <:+: content)
    (start position : Nat) (rest : Bytes) :
    Leads maxAttributes
      ⟨.enclosed kind start, ⟨position, content ++ (kind.ending ++ rest)⟩⟩
      [⟨.enclosed kind ⟨position, position + content.length⟩,
        ⟨start, position + content.length + kind.ending.length⟩⟩]
      ⟨.text (position + content.length + kind.ending.length),
        ⟨position + content.length + kind.ending.length, rest⟩⟩ := by
  have hending : kind.ending ≠ [] := by
    cases kind <;> exact List.cons_ne_nil _ _
  have hfind : (⟨position, content ++ (kind.ending ++ rest)⟩ : Cursor).find? kind.ending =
      some (position + content.length) := by
    rw [Cursor.find?, ← List.append_assoc]
    refine Bytes.search?_eq_some (fun left right hsplit hright => ?_) position
    exact not_prefix_ending (hsplit ▸ hcontent) hright
  have hadvance : (⟨position, content ++ (kind.ending ++ rest)⟩ : Cursor).advance
      (position + content.length + kind.ending.length - position) =
        ⟨position + content.length + kind.ending.length, rest⟩ := by
    rw [show position + content.length + kind.ending.length - position =
      content.length + (kind.ending.length + 0) by omega, Cursor.advance_append, Cursor.advance_append]
    rfl
  obtain ⟨b, more, hmore⟩ := List.exists_cons_of_ne_nil
    (List.append_ne_nil_of_right_ne_nil content (List.append_ne_nil_of_left_ne_nil hending rest))
  have hstep : stepEnclosed kind start ⟨position, content ++ (kind.ending ++ rest)⟩ =
      ⟨⟨.text (position + content.length + kind.ending.length),
        ⟨position + content.length + kind.ending.length, rest⟩⟩,
        [⟨.enclosed kind ⟨position, position + content.length⟩,
          ⟨start, position + content.length + kind.ending.length⟩⟩]⟩ := by
    simp only [stepEnclosed, hfind, hadvance]
  rw [hmore] at hstep ⊢
  have hmove : step maxAttributes ⟨.enclosed kind start, ⟨position, b :: more⟩⟩ b
      ⟨position + 1, more⟩ = .ok _ := congrArg Except.ok hstep
  exact Leads.of_step hmove

theorem leads_enclosed (kind : Enclosure) {content : Bytes} (hcontent : ¬ kind.ending <:+: content)
    (start position : Nat) (rest : Bytes) :
    Leads maxAttributes
      ⟨.text start, ⟨position, kind.opening ++ (content ++ (kind.ending ++ rest))⟩⟩
      (textEntity start position ++
        [⟨.enclosed kind
          ⟨position + kind.opening.length, position + kind.opening.length + content.length⟩,
          ⟨position, position + kind.opening.length + content.length + kind.ending.length⟩⟩])
      ⟨.text (position + kind.opening.length + content.length + kind.ending.length),
        ⟨position + kind.opening.length + content.length + kind.ending.length, rest⟩⟩ := by
  obtain ⟨more, hmore⟩ : ∃ more, kind.opening = Byte.less :: more := by
    cases kind <;> exact ⟨_, rfl⟩
  have hopen : openMarkup ⟨position, kind.opening ++ (content ++ (kind.ending ++ rest))⟩ =
      (.enclosed kind position, kind.opening.length) := by
    cases kind <;> rfl
  have hless : Leads maxAttributes _ _ _ :=
    leads_less start position (more ++ (content ++ (kind.ending ++ rest)))
  rw [← List.cons_append, ← hmore, hopen] at hless
  have hskip := Cursor.advance_append kind.opening (content ++ (kind.ending ++ rest)) position 0
  simp only [Nat.add_zero] at hskip
  rw [hskip] at hless
  refine hless.trans (leads_content ?_ position (position + kind.opening.length) rest)
  exact hcontent

end ScanState

end VersionedXml
