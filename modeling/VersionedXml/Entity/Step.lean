import VersionedXml.Entity.Mode

/-!
# One step of scanning

A step looks at the bytes ahead, of which there is at least one, and moves to the next state.  It
emits the entities that it completes.  Each step that does not fail lowers
`ScanState.remaining`, so scanning ends on every input, well-formed or not.
-/

namespace VersionedXml

structure Move where
  state : ScanState
  emitted : List Entity
  deriving DecidableEq, Repr

namespace Move

def silent (mode : Mode) (here : Cursor) : Move := ⟨⟨mode, here⟩, []⟩

def stop (here : Cursor) : Move := silent .stopped here.toEnd

def finishTag (tag : Tag) (ending : TagEnd) (here : Cursor) : Move :=
  let stop := here.position + ending.width
  ⟨⟨.text stop, here.advance ending.width⟩, tag.entities ending stop⟩

end Move

namespace ScanState

/-- The text from `start` to `stop`, unless it is empty. -/
def textEntity (start stop : Nat) : List Entity :=
  if start < stop then [⟨.text, ⟨start, stop⟩⟩] else []

/-- What begins with the `<` at `here`. -/
def openMarkup (here : Cursor) : Mode × Nat :=
  if Enclosure.comment.opening.isPrefixOf here.rest then
    (.enclosed .comment here.position, Enclosure.comment.opening.length)
  else if Enclosure.cdata.opening.isPrefixOf here.rest then
    (.enclosed .cdata here.position, Enclosure.cdata.opening.length)
  else if Enclosure.instruction.opening.isPrefixOf here.rest then
    (.enclosed .instruction here.position, Enclosure.instruction.opening.length)
  else if here.peekAt? 1 = some Byte.slash then
    (.tagName ⟨here.position, true⟩, 2)
  else
    (.tagName ⟨here.position, false⟩, 1)

def stepText (start : Nat) (here : Cursor) : Move :=
  match here.find? [Byte.less] with
  | none => .silent (.text start) here.toEnd
  | some less =>
      let atLess := here.advance (less - here.position)
      let opened := openMarkup atLess
      ⟨⟨opened.1, atLess.advance opened.2⟩, textEntity start less⟩

def stepEnclosed (kind : Enclosure) (start : Nat) (here : Cursor) : Move :=
  match here.find? kind.ending with
  | none => .stop here
  | some found =>
      let stop := found + kind.ending.length
      ⟨⟨.text stop, here.advance (stop - here.position)⟩,
        [⟨.enclosed kind ⟨here.position, found⟩, ⟨start, stop⟩⟩]⟩

/-- In the name of a tag: space or the end of the tag ends the name, which must not be empty. -/
def stepTagName (head : TagHead) (here : Cursor) (b : UInt8) (next : Cursor) : Move :=
  let tag : Tag := ⟨head, ⟨head.nameStart, here.position⟩, #[]⟩
  if Byte.isSpace b then
    if tag.name.isEmpty then .stop here else .silent (.tag tag) next
  else
    match TagEnd.of? here.rest with
    | some ending => if tag.name.isEmpty then .stop here else .finishTag tag ending here
    | none => .silent (.tagName head) next

/-- Between attributes: space and stray slashes are skipped, and so is everything in a closing
tag. -/
def stepTag (tag : Tag) (here : Cursor) (b : UInt8) (next : Cursor) : Move :=
  match TagEnd.of? here.rest with
  | some ending => .finishTag tag ending here
  | none =>
      if Byte.isSpace b || b == Byte.slash || tag.head.closing then
        .silent (.tag tag) next
      else
        .silent (.attributeName tag here.position) next

def stepAttributeName (maxAttributes : Nat) (tag : Tag) (start : Nat) (here : Cursor)
    (b : UInt8) (next : Cursor) : Except ScanError Move :=
  let name : Span := ⟨start, here.position⟩
  if b = Byte.equals then
    .ok (.silent (.beforeValue tag name) next)
  else if Byte.isSpace b then
    .ok (.silent (.beforeEquals tag name) next)
  else if (TagEnd.of? here.rest).isSome then
    (tag.addAttribute maxAttributes ⟨name, Span.empty here.position⟩).map fun tag =>
      .silent (.tag tag) here
  else
    .ok (.silent (.attributeName tag start) next)

def stepBeforeEquals (maxAttributes : Nat) (tag : Tag) (name : Span) (here : Cursor)
    (b : UInt8) (next : Cursor) : Except ScanError Move :=
  if Byte.isSpace b then
    .ok (.silent (.beforeEquals tag name) next)
  else if b = Byte.equals then
    .ok (.silent (.beforeValue tag name) next)
  else
    (tag.addAttribute maxAttributes ⟨name, Span.empty name.stop⟩).map fun tag =>
      .silent (.tag tag) here

/-- Behind the `=` of an attribute: a quote begins a quoted value, the end of the tag makes the
value empty, and any other byte begins a bare value. -/
def stepBeforeValue (maxAttributes : Nat) (tag : Tag) (name : Span) (here : Cursor)
    (b : UInt8) (next : Cursor) : Except ScanError Move :=
  if Byte.isSpace b then
    .ok (.silent (.beforeValue tag name) next)
  else if Byte.isQuote b then
    .ok (.silent (.value tag name (some b) next.position) next)
  else if (TagEnd.of? here.rest).isSome then
    (tag.addAttribute maxAttributes ⟨name, Span.empty here.position⟩).map fun tag =>
      .silent (.tag tag) here
  else
    .ok (.silent (.value tag name none here.position) next)

def stepQuoted (maxAttributes : Nat) (tag : Tag) (name : Span) (quote : UInt8) (start : Nat)
    (here : Cursor) : Except ScanError Move :=
  match here.find? [quote] with
  | none => .ok (.stop here)
  | some found =>
      (tag.addAttribute maxAttributes ⟨name, ⟨start, found⟩⟩).map fun tag =>
        .silent (.tag tag) (here.advance (found + 1 - here.position))

def stepBare (maxAttributes : Nat) (tag : Tag) (name : Span) (start : Nat) (here : Cursor)
    (b : UInt8) (next : Cursor) : Except ScanError Move :=
  let added : Attribute := ⟨name, ⟨start, here.position⟩⟩
  if Byte.isSpace b then
    (tag.addAttribute maxAttributes added).map fun tag => .silent (.tag tag) next
  else if (TagEnd.of? here.rest).isSome then
    (tag.addAttribute maxAttributes added).map fun tag => .silent (.tag tag) here
  else
    .ok (.silent (.value tag name none start) next)

def step (maxAttributes : Nat) (state : ScanState) (b : UInt8) (next : Cursor) :
    Except ScanError Move :=
  let here := state.here
  match state.mode with
  | .text start => .ok (stepText start here)
  | .enclosed kind start => .ok (stepEnclosed kind start here)
  | .tagName head => .ok (stepTagName head here b next)
  | .tag tag => .ok (stepTag tag here b next)
  | .attributeName tag start => stepAttributeName maxAttributes tag start here b next
  | .beforeEquals tag name => stepBeforeEquals maxAttributes tag name here b next
  | .beforeValue tag name => stepBeforeValue maxAttributes tag name here b next
  | .value tag name (some quote) start =>
      stepQuoted maxAttributes tag name quote start here
  | .value tag name none start => stepBare maxAttributes tag name start here b next
  | .stopped => .ok (.stop here)

end ScanState

end VersionedXml
