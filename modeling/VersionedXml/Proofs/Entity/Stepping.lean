import VersionedXml.Proofs.Entity.Shape

/-!
# What a step can do

A step that does not fail goes on in one of five ways, and only three of them emit something.  The
limit on attributes is asked at one place only: when one more attribute is added to the tag in
progress.  So a step fails for one reason only, and under a higher limit it does the same or adds the
attribute that was refused.
-/

namespace VersionedXml

def Mode.isText : Mode → Bool
  | .text _ => true
  | _ => false

theorem Mode.mark?_of_tag? {mode : Mode} {tag : Tag} (htag : mode.tag? = some tag) :
    mode.isText = false ∧ mode.mark? = some tag.head.start := by
  cases mode with
  | text _ => cases htag
  | enclosed _ _ => cases htag
  | tagName _ => cases htag
  | stopped => cases htag
  | _ =>
      cases htag
      exact ⟨rfl, rfl⟩

namespace ScanState

/-! ## The ways to go on -/

inductive Stepped (state : ScanState) : Move → Prop where
  | goesOn {mode : Mode} {here : Cursor} (htext : mode.isText = state.mode.isText)
      (hmark : mode.mark? = state.mode.mark?) : Stepped state (.silent mode here)
  | givesUp (htext : state.mode.isText = false) : Stepped state (.stop state.here)
  | meetsMarkup {start less : Nat} (hmode : state.mode = .text start)
      (hfound : state.here.find? [Byte.less] = some less) :
      Stepped state
        ⟨⟨(openMarkup (state.here.advance (less - state.here.position))).1,
          (state.here.advance (less - state.here.position)).advance
            (openMarkup (state.here.advance (less - state.here.position))).2⟩,
          textEntity start less⟩
  | encloses {kind : Enclosure} {start found : Nat} {here : Cursor}
      (hmode : state.mode = .enclosed kind start)
      (hfound : state.here.find? kind.ending = some found) :
      Stepped state ⟨⟨.text (found + kind.ending.length), here⟩,
        [⟨.enclosed kind ⟨state.here.position, found⟩, ⟨start, found + kind.ending.length⟩⟩]⟩
  | finishesTag {tag : Tag} {ending : TagEnd} (htext : state.mode.isText = false)
      (hmark : state.mode.mark? = some tag.head.start) :
      Stepped state (.finishTag tag ending state.here)

section

variable {maxAttributes : Nat} {tag : Tag} {name : Span} {here next : Cursor} {b : UInt8}

theorem stepped_of_addAttribute {state : ScanState} {added : Attribute} {move : Move}
    (htext : state.mode.isText = false) (hmark : state.mode.mark? = some tag.head.start)
    (hmove : (tag.addAttribute maxAttributes added).map
      (fun enlarged => Move.silent (.tag enlarged) here) = .ok move) : state.Stepped move := by
  obtain ⟨-, rfl⟩ := Tag.eq_enlarge_of_map_addAttribute hmove
  exact .goesOn htext.symm hmark.symm

theorem stepped_stepText (start : Nat) (here : Cursor) :
    Stepped ⟨.text start, here⟩ (stepText start here) := by
  unfold stepText
  split
  · exact .goesOn rfl rfl
  · rename_i less hfound
    exact .meetsMarkup rfl hfound

theorem stepped_stepEnclosed (kind : Enclosure) (start : Nat) (here : Cursor) :
    Stepped ⟨.enclosed kind start, here⟩ (stepEnclosed kind start here) := by
  unfold stepEnclosed
  split
  · exact .givesUp rfl
  · rename_i found hfound
    exact .encloses rfl hfound

theorem stepped_stepTagName (head : TagHead) (here : Cursor) (b : UInt8) (next : Cursor) :
    Stepped ⟨.tagName head, here⟩ (stepTagName head here b next) := by
  unfold stepTagName
  dsimp only
  split
  · split
    · exact .givesUp rfl
    · exact .goesOn rfl rfl
  · split
    · split
      · exact .givesUp rfl
      · exact .finishesTag rfl rfl
    · exact .goesOn rfl rfl

theorem stepped_stepTag (tag : Tag) (here : Cursor) (b : UInt8) (next : Cursor) :
    Stepped ⟨.tag tag, here⟩ (stepTag tag here b next) := by
  unfold stepTag
  split
  · exact .finishesTag rfl rfl
  · split
    · exact .goesOn rfl rfl
    · exact .goesOn rfl rfl

theorem stepped_stepAttributeName {start : Nat} {move : Move}
    (hstep : stepAttributeName maxAttributes tag start here b next = .ok move) :
    Stepped ⟨.attributeName tag start, here⟩ move := by
  unfold stepAttributeName at hstep
  dsimp only at hstep
  split at hstep
  · cases hstep
    exact .goesOn rfl rfl
  · split at hstep
    · cases hstep
      exact .goesOn rfl rfl
    · split at hstep
      · exact stepped_of_addAttribute rfl rfl hstep
      · cases hstep
        exact .goesOn rfl rfl

theorem stepped_stepBeforeEquals {move : Move}
    (hstep : stepBeforeEquals maxAttributes tag name here b next = .ok move) :
    Stepped ⟨.beforeEquals tag name, here⟩ move := by
  unfold stepBeforeEquals at hstep
  split at hstep
  · cases hstep
    exact .goesOn rfl rfl
  · split at hstep
    · cases hstep
      exact .goesOn rfl rfl
    · exact stepped_of_addAttribute rfl rfl hstep

theorem stepped_stepBeforeValue {move : Move}
    (hstep : stepBeforeValue maxAttributes tag name here b next = .ok move) :
    Stepped ⟨.beforeValue tag name, here⟩ move := by
  unfold stepBeforeValue at hstep
  split at hstep
  · cases hstep
    exact .goesOn rfl rfl
  · split at hstep
    · cases hstep
      exact .goesOn rfl rfl
    · split at hstep
      · exact stepped_of_addAttribute rfl rfl hstep
      · cases hstep
        exact .goesOn rfl rfl

theorem stepped_stepQuoted {quote : UInt8} {start : Nat} {move : Move}
    (hstep : stepQuoted maxAttributes tag name quote start here = .ok move) :
    Stepped ⟨.value tag name (some quote) start, here⟩ move := by
  unfold stepQuoted at hstep
  split at hstep
  · cases hstep
    exact .givesUp rfl
  · exact stepped_of_addAttribute rfl rfl hstep

theorem stepped_stepBare {start : Nat} {move : Move}
    (hstep : stepBare maxAttributes tag name start here b next = .ok move) :
    Stepped ⟨.value tag name none start, here⟩ move := by
  unfold stepBare at hstep
  dsimp only at hstep
  split at hstep
  · exact stepped_of_addAttribute rfl rfl hstep
  · split at hstep
    · exact stepped_of_addAttribute rfl rfl hstep
    · cases hstep
      exact .goesOn rfl rfl

/-- Every step that does not fail goes on in one of the five ways. -/
theorem stepped_of_step {state : ScanState} {move : Move}
    (hstep : state.step maxAttributes b next = .ok move) : state.Stepped move := by
  obtain ⟨mode, here⟩ := state
  cases mode with
  | text start =>
      cases hstep
      exact stepped_stepText start here
  | enclosed kind start =>
      cases hstep
      exact stepped_stepEnclosed kind start here
  | tagName head =>
      cases hstep
      exact stepped_stepTagName head here b next
  | tag tag =>
      cases hstep
      exact stepped_stepTag tag here b next
  | attributeName tag start => exact stepped_stepAttributeName hstep
  | beforeEquals tag name => exact stepped_stepBeforeEquals hstep
  | beforeValue tag name => exact stepped_stepBeforeValue hstep
  | value tag name quote start =>
      cases quote with
      | none => exact stepped_stepBare hstep
      | some quote => exact stepped_stepQuoted hstep
  | stopped =>
      cases hstep
      exact .givesUp rfl

end

/-! ## The limit -/

/-- Where the limit comes into a step. -/
inductive Asks (step : Nat → Except ScanError Move) (tag? : Option Tag) : Prop where
  | never {move : Move} (hstep : ∀ limit, step limit = .ok move)
  | once {tag : Tag} {added : Attribute} {here : Cursor} (htag : tag? = some tag)
      (hstep : ∀ limit, step limit =
        (tag.addAttribute limit added).map fun enlarged => .silent (.tag enlarged) here)

section

variable (tag : Tag) (name : Span) (start : Nat) (here : Cursor) (b : UInt8) (next : Cursor)

theorem asks_stepAttributeName :
    Asks (fun limit => stepAttributeName limit tag start here b next) (some tag) := by
  unfold stepAttributeName
  dsimp only
  split
  · exact .never fun _ => rfl
  · split
    · exact .never fun _ => rfl
    · split
      · exact .once rfl fun _ => rfl
      · exact .never fun _ => rfl

theorem asks_stepBeforeEquals :
    Asks (fun limit => stepBeforeEquals limit tag name here b next) (some tag) := by
  unfold stepBeforeEquals
  split
  · exact .never fun _ => rfl
  · split
    · exact .never fun _ => rfl
    · exact .once rfl fun _ => rfl

theorem asks_stepBeforeValue :
    Asks (fun limit => stepBeforeValue limit tag name here b next) (some tag) := by
  unfold stepBeforeValue
  split
  · exact .never fun _ => rfl
  · split
    · exact .never fun _ => rfl
    · split
      · exact .once rfl fun _ => rfl
      · exact .never fun _ => rfl

theorem asks_stepQuoted (quote : UInt8) :
    Asks (fun limit => stepQuoted limit tag name quote start here) (some tag) := by
  unfold stepQuoted
  split
  · exact .never fun _ => rfl
  · exact .once rfl fun _ => rfl

theorem asks_stepBare :
    Asks (fun limit => stepBare limit tag name start here b next) (some tag) := by
  unfold stepBare
  dsimp only
  split
  · exact .once rfl fun _ => rfl
  · split
    · exact .once rfl fun _ => rfl
    · exact .never fun _ => rfl

end

/-- A step asks the limit only to add an attribute to the tag in progress. -/
theorem asks_step (state : ScanState) (b : UInt8) (next : Cursor) :
    Asks (fun limit => state.step limit b next) state.mode.tag? := by
  obtain ⟨mode, here⟩ := state
  cases mode with
  | text start => exact .never fun _ => rfl
  | enclosed kind start => exact .never fun _ => rfl
  | tagName head => exact .never fun _ => rfl
  | tag tag => exact .never fun _ => rfl
  | attributeName tag start => exact asks_stepAttributeName tag start here b next
  | beforeEquals tag name => exact asks_stepBeforeEquals tag name here b next
  | beforeValue tag name => exact asks_stepBeforeValue tag name here b next
  | value tag name quote start =>
      cases quote with
      | none => exact asks_stepBare tag name start here b next
      | some quote => exact asks_stepQuoted tag name start here quote
  | stopped => exact .never fun _ => rfl

variable {low high : Nat} {state : ScanState} {b : UInt8} {next : Cursor}

/-- A step that the lower limit admits is the same under the higher one. -/
theorem step_of_le (hle : low ≤ high) {move : Move} (hstep : state.step low b next = .ok move) :
    state.step high b next = .ok move := by
  cases asks_step state b next with
  | never hnever => exact (hnever high).trans ((hnever low).symm.trans hstep)
  | once htag honce =>
      obtain ⟨hroom, rfl⟩ := Tag.eq_enlarge_of_map_addAttribute ((honce low).symm.trans hstep)
      refine (honce high).trans ?_
      rw [Tag.addAttribute_of_lt (Nat.lt_of_lt_of_le hroom hle)]
      rfl

/-- A step that a limit refuses adds one attribute under every limit that has room for it. -/
theorem exists_enlarge_of_step_eq_error {failure : ScanError}
    (hstep : state.step low b next = .error failure) :
    ∃ tag added here, state.mode.tag? = some tag ∧ low ≤ tag.attributes.size ∧
      failure = .tooManyAttributes tag.head.start low ∧
      ∀ limit, tag.attributes.size < limit →
        state.step limit b next = .ok (.silent (.tag (tag.enlarge added)) here) := by
  cases asks_step state b next with
  | never hnever => cases (hnever low).symm.trans hstep
  | @once tag added here htag honce =>
      obtain ⟨hfull, hfailure⟩ :=
        Tag.eq_of_map_addAttribute_eq_error ((honce low).symm.trans hstep)
      refine ⟨tag, added, here, htag, hfull, hfailure, fun limit hlimit => (honce limit).trans ?_⟩
      rw [Tag.addAttribute_of_lt hlimit]
      rfl

end ScanState

end VersionedXml
