import VersionedXml.Entity.Delivery

/-!
# Scanning with registers

The scanner as a machine: a loop over the bytes of an input that keeps everything it has read of a
construct in registers.  When a construct is complete the machine goes on with text, and clears none
of the registers but the attributes.
-/

namespace VersionedXml

namespace Run

inductive State where
  | text
  | enclosed (kind : Enclosure)
  | tagName
  | tag
  | attributeName
  | equals
  | quote
  | value
  deriving DecidableEq, Repr

end Run

/-- The registers of a scan, and what it has handed over. -/
structure Run (σ : Type) where
  input : Buffer
  maxAttributes : Nat
  here : Cursor
  delivery : Delivery σ
  state : Run.State
  textStart : Nat
  tagStart : Nat
  /-- Where the content of an enclosed section begins, or the name of a tag. -/
  contentStart : Nat
  name : Span
  closing : Bool
  attributeName : Span
  attributeStart : Nat
  valueStart : Nat
  quote : Option UInt8
  attributes : Array Attribute
  stopped : Bool

namespace Run

variable {σ : Type} (receive : σ → PlacedEntity → σ)

def start (maxAttributes : Nat) (sink : σ) (input : Buffer) : Run σ where
  input := input
  maxAttributes := maxAttributes
  here := Cursor.start input
  delivery := .start sink input
  state := .text
  textStart := 0
  tagStart := 0
  contentStart := 0
  name := Span.empty 0
  closing := false
  attributeName := Span.empty 0
  attributeStart := 0
  valueStart := 0
  quote := none
  attributes := #[]
  stopped := false

/-! ## Moves and handing over -/

def moveTo (run : Run σ) (offset : Nat) : Run σ :=
  { run with here := run.here.moveTo run.input offset }

def advance (run : Run σ) (count : Nat) : Run σ :=
  { run with here := run.here.advance count }

def emit (run : Run σ) (kind : EntityKind) (span : Span) : Run σ :=
  { run with delivery := run.delivery.hand receive ⟨kind, span⟩ }

def flushText (run : Run σ) (stop : Nat) : Run σ :=
  if run.textStart < stop then run.emit receive .text ⟨run.textStart, stop⟩ else run

def resumeText (run : Run σ) (offset : Nat) : Run σ :=
  { run with state := .text, textStart := offset }.moveTo offset

def truncate (run : Run σ) : Run σ :=
  { run with stopped := true }.moveTo run.input.size

def enter (run : Run σ) (state : State) (contentStart : Nat) : Run σ :=
  { run with state := state, contentStart := contentStart }.moveTo contentStart

/-! ## Texts and enclosed sections -/

/-- What begins with the `<` at this place, whose offset is `less`. -/
def readMarkup (run : Run σ) (less : Nat) : Run σ :=
  if run.here.startsWithAt 1 [0x21, 0x2d, 0x2d] then
    run.enter (.enclosed .comment) (less + 4)
  else if run.here.startsWithAt 1 [0x21, 0x5b, 0x43, 0x44, 0x41, 0x54, 0x41, 0x5b] then
    run.enter (.enclosed .cdata) (less + 9)
  else if run.here.peekAt? 1 = some Byte.question then
    run.enter (.enclosed .instruction) (less + 2)
  else if run.here.peekAt? 1 = some Byte.slash then
    { run with closing := true }.enter .tagName (less + 2)
  else
    { run with closing := false }.enter .tagName (less + 1)

def readText (run : Run σ) : Run σ :=
  match run.here.find? [Byte.less] with
  | none => run.moveTo run.input.size
  | some less =>
      { (run.moveTo less).flushText receive less with tagStart := less }.readMarkup less

def readEnclosed (run : Run σ) (kind : Enclosure) : Run σ :=
  match Bytes.searchFrom? kind.ending run.contentStart run.input with
  | none => run.truncate
  | some found =>
      let stop := found + kind.ending.length
      let content : Span := ⟨run.contentStart, found⟩
      (run.emit receive (.enclosed kind content) ⟨run.tagStart, stop⟩).resumeText stop

/-! ## Tags -/

/-- Hands over a complete tag.  The attributes are those of an opening tag; a closing tag drops
them. -/
def emitTag (run : Run σ) (stop : Nat) (selfClosing : Bool) : Run σ :=
  let span : Span := ⟨run.tagStart, stop⟩
  let bare := { run with attributes := #[] }
  if run.closing then
    (bare.emit receive (.closed run.name false) span).resumeText stop
  else
    let opened := bare.emit receive (.opened run.name run.attributes.toList selfClosing) span
    let closed :=
      if selfClosing then opened.emit receive (.closed run.name true) (Span.empty stop) else opened
    closed.resumeText stop

def endName (run : Run σ) (goOn : Run σ → Run σ) : Run σ :=
  let named := { run with name := ⟨run.contentStart, run.here.position⟩ }
  if named.name.isEmpty then named.truncate else goOn named

def readTagName (run : Run σ) (b : UInt8) : Run σ :=
  let position := run.here.position
  if Byte.isSpace b then
    run.endName fun named => { named with state := .tag }.advance 1
  else if b = Byte.greater then
    run.endName fun named => named.emitTag receive (position + 1) false
  else if b = Byte.slash ∧ run.here.peekAt? 1 = some Byte.greater then
    run.endName fun named => named.emitTag receive (position + 2) true
  else
    run.advance 1

def readTag (run : Run σ) (b : UInt8) : Run σ :=
  let position := run.here.position
  if b = Byte.greater then
    run.emitTag receive (position + 1) false
  else if b = Byte.slash ∧ run.here.peekAt? 1 = some Byte.greater then
    run.emitTag receive (position + 2) true
  else if Byte.isSpace b ∨ b = Byte.slash ∨ run.closing = true then
    run.advance 1
  else
    { run with attributeStart := position, state := .attributeName }.advance 1

/-! ## Attributes -/

def atTagEnd (run : Run σ) (b : UInt8) : Bool :=
  b = Byte.greater || b = Byte.slash && run.here.peekAt? 1 = some Byte.greater

def pushAttribute (run : Run σ) (value : Span) : Except ScanError (Run σ) :=
  if run.maxAttributes ≤ run.attributes.size then
    .error (.tooManyAttributes run.tagStart run.maxAttributes)
  else
    .ok { run with attributes := run.attributes.push ⟨run.attributeName, value⟩, state := .tag }

def readAttributeName (run : Run σ) (b : UInt8) : Except ScanError (Run σ) :=
  let position := run.here.position
  let named := { run with attributeName := ⟨run.attributeStart, position⟩ }
  if b = Byte.equals then
    .ok ({ named with state := .quote }.advance 1)
  else if Byte.isSpace b then
    .ok ({ named with state := .equals }.advance 1)
  else if run.atTagEnd b then
    named.pushAttribute (Span.empty position)
  else
    .ok (run.advance 1)

def readEquals (run : Run σ) (b : UInt8) : Except ScanError (Run σ) :=
  if Byte.isSpace b then
    .ok (run.advance 1)
  else if b = Byte.equals then
    .ok ({ run with state := .quote }.advance 1)
  else
    run.pushAttribute (Span.empty run.attributeName.stop)

def readQuote (run : Run σ) (b : UInt8) : Except ScanError (Run σ) :=
  let position := run.here.position
  if Byte.isSpace b then
    .ok (run.advance 1)
  else if b = Byte.doubleQuote ∨ b = Byte.singleQuote then
    .ok ({ run with quote := some b, valueStart := position + 1, state := .value }.advance 1)
  else if run.atTagEnd b then
    run.pushAttribute (Span.empty position)
  else
    .ok ({ run with quote := none, valueStart := position, state := .value }.advance 1)

def readValue (run : Run σ) (b : UInt8) : Except ScanError (Run σ) :=
  let position := run.here.position
  match run.quote with
  | some quote =>
      match run.here.find? [quote] with
      | some close =>
          (run.pushAttribute ⟨run.valueStart, close⟩).map fun pushed => pushed.moveTo (close + 1)
      | none => .ok run.truncate
  | none =>
      if Byte.isSpace b then
        (run.pushAttribute ⟨run.valueStart, position⟩).map fun pushed => pushed.advance 1
      else if run.atTagEnd b then
        run.pushAttribute ⟨run.valueStart, position⟩
      else
        .ok (run.advance 1)

/-! ## The loop -/

def step (run : Run σ) (b : UInt8) : Except ScanError (Run σ) :=
  match run.state with
  | .text => .ok (run.readText receive)
  | .enclosed kind => .ok (run.readEnclosed receive kind)
  | .tagName => .ok (run.readTagName receive b)
  | .tag => .ok (run.readTag receive b)
  | .attributeName => run.readAttributeName b
  | .equals => run.readEquals b
  | .quote => run.readQuote b
  | .value => run.readValue b

def finish (run : Run σ) : Run σ :=
  if run.state = .text then run.flushText receive run.input.size else run

/-- Steps as long as a byte lies ahead, but no more than so many times. -/
def loop : Nat → Run σ → Option (Run σ × Option ScanError)
  | 0, _ => none
  | steps + 1, run =>
      match run.here.peek? with
      | none => some (run.finish receive, none)
      | some b =>
          match run.step receive b with
          | .error failure => some (run, some failure)
          | .ok next => loop steps next

/-- Scans an input into a sink.  Two steps for each byte, and two more, are always enough. -/
def write (maxAttributes : Nat) (sink : σ) (input : Buffer) : Option (σ × Except ScanError Nat) :=
  (loop receive (2 * input.size + 2) (start maxAttributes sink input)).map fun ended =>
    (ended.1.delivery.sink,
      match ended.2 with
      | none => .ok ended.1.delivery.count
      | some failure => .error failure)

/-- Scans an input into a list of its entities. -/
def collect (maxAttributes : Nat) (input : Buffer) :
    Option (List PlacedEntity × Except ScanError Nat) :=
  write (fun known placed => known ++ [placed]) maxAttributes [] input

end Run

end VersionedXml
