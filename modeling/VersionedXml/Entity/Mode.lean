import VersionedXml.Entity
import VersionedXml.Error

/-!
# The modes of scanning

Between two bytes the scanner is in one of a few modes.  A mode holds what the entity in progress
still needs, and no more: of the registers of a `Run`, which keep what earlier constructs left there,
it is the part that counts.
-/

namespace VersionedXml

structure TagHead where
  start : Nat
  closing : Bool
  deriving DecidableEq, Repr

def TagHead.nameStart (head : TagHead) : Nat :=
  head.start + if head.closing then 2 else 1

structure Tag where
  head : TagHead
  name : Span
  attributes : Array Attribute
  deriving DecidableEq, Repr

/-- The two ways in which a tag ends. -/
inductive TagEnd where
  | plain
  | selfClosing
  deriving DecidableEq, Repr

namespace TagEnd

def width : TagEnd → Nat
  | plain => 1
  | selfClosing => 2

def of? : Bytes → Option TagEnd
  | [] => none
  | b :: rest =>
      if b = Byte.greater then some plain
      else if b = Byte.slash ∧ rest.head? = some Byte.greater then some selfClosing
      else none

/-- An ending takes its width of the bytes ahead. -/
theorem width_le_of_of? {bytes : Bytes} {ending : TagEnd} (hending : of? bytes = some ending) :
    ending.width ≤ bytes.length := by
  cases bytes with
  | nil => cases hending
  | cons b rest =>
      simp only [of?] at hending
      split at hending
      · cases hending
        simp [width]
      · split at hending
        · rename_i hslash
          cases hending
          cases rest with
          | nil => simp at hslash
          | cons c rest => simp [width]
        · cases hending

theorem width_pos (ending : TagEnd) : 0 < ending.width := by
  cases ending <;> simp [width]

end TagEnd

namespace Tag

def addAttribute (maxAttributes : Nat) (tag : Tag) (added : Attribute) :
    Except ScanError Tag :=
  if tag.attributes.size < maxAttributes then
    .ok { tag with attributes := tag.attributes.push added }
  else
    .error (.tooManyAttributes tag.head.start maxAttributes)

/-- The tag with one more attribute, whatever the limit. -/
def enlarge (tag : Tag) (added : Attribute) : Tag :=
  { tag with attributes := tag.attributes.push added }

section

variable {limit : Nat} {tag : Tag} {added : Attribute}

@[simp]
theorem size_enlarge : (tag.enlarge added).attributes.size = tag.attributes.size + 1 :=
  Array.size_push _

@[simp]
theorem toList_enlarge :
    (tag.enlarge added).attributes.toList = tag.attributes.toList ++ [added] :=
  Array.toList_push

theorem addAttribute_of_lt (hroom : tag.attributes.size < limit) :
    tag.addAttribute limit added = .ok (tag.enlarge added) :=
  if_pos hroom

theorem addAttribute_of_le (hfull : limit ≤ tag.attributes.size) :
    tag.addAttribute limit added = .error (.tooManyAttributes tag.head.start limit) :=
  if_neg (Nat.not_lt.mpr hfull)

variable {α : Type} {make : Tag → α}

/-- What is made with an added attribute is made of the enlarged tag. -/
theorem eq_enlarge_of_map_addAttribute {made : α}
    (hmap : (tag.addAttribute limit added).map make = .ok made) :
    tag.attributes.size < limit ∧ made = make (tag.enlarge added) := by
  rcases Nat.lt_or_ge tag.attributes.size limit with hroom | hfull
  · rw [addAttribute_of_lt hroom] at hmap
    exact ⟨hroom, (Except.ok.inj hmap).symm⟩
  · rw [addAttribute_of_le hfull] at hmap
    cases hmap

theorem eq_of_map_addAttribute_eq_error {failure : ScanError}
    (hmap : (tag.addAttribute limit added).map make = .error failure) :
    limit ≤ tag.attributes.size ∧ failure = .tooManyAttributes tag.head.start limit := by
  rcases Nat.lt_or_ge tag.attributes.size limit with hroom | hfull
  · rw [addAttribute_of_lt hroom] at hmap
    cases hmap
  · rw [addAttribute_of_le hfull] at hmap
    exact ⟨hfull, (Except.error.inj hmap).symm⟩

end

def entities (tag : Tag) (ending : TagEnd) (stop : Nat) : List Entity :=
  let span : Span := ⟨tag.head.start, stop⟩
  if tag.head.closing then
    [⟨.closed tag.name false, span⟩]
  else
    match ending with
    | .plain => [⟨.opened tag.name tag.attributes.toList false, span⟩]
    | .selfClosing =>
        [⟨.opened tag.name tag.attributes.toList true, span⟩,
          ⟨.closed tag.name true, Span.empty stop⟩]

end Tag

/-- What the scanner is doing between two bytes. -/
inductive Mode where
  | text (start : Nat)
  | enclosed (kind : Enclosure) (start : Nat)
  | tagName (head : TagHead)
  | tag (tag : Tag)
  | attributeName (tag : Tag) (start : Nat)
  | beforeEquals (tag : Tag) (name : Span)
  | beforeValue (tag : Tag) (name : Span)
  /-- In a value that began at `start`, and that the quote ends if there is one. -/
  | value (tag : Tag) (name : Span) (quote : Option UInt8) (start : Nat)
  /-- Behind markup that makes no entity: nothing more is emitted. -/
  | stopped
  deriving DecidableEq, Repr

/-- A mode and the place in the input. -/
structure ScanState where
  mode : Mode
  here : Cursor
  deriving DecidableEq, Repr

def ScanState.start (input : Buffer) : ScanState :=
  ⟨.text 0, Cursor.start input⟩

/-- The modes that hand over to `Mode.tag` without consuming a byte weigh one more than it. -/
def Mode.weight : Mode → Nat
  | tag _ => 0
  | _ => 1

/-- A bound on the steps that are left: two for each byte ahead, and the weight of the mode. -/
def ScanState.remaining (state : ScanState) : Nat :=
  2 * state.here.rest.length + state.mode.weight

end VersionedXml
