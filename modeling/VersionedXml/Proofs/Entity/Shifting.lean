import VersionedXml.Proofs.Entity.Runs

/-!
# Scanning further on

What the scanner does at a place depends on the bytes ahead and on what it has read of the entity in
progress, and offsets enter only by being carried along.  So a scanner that begins further on makes the
same steps, and every offset that it emits lies as much further on.
-/

namespace VersionedXml

/-! ## Further on -/

def Span.shift (count : Nat) (span : Span) : Span :=
  ⟨span.start + count, span.stop + count⟩

def Attribute.shift (count : Nat) (pair : Attribute) : Attribute :=
  ⟨pair.name.shift count, pair.value.shift count⟩

def EntityKind.shift (count : Nat) : EntityKind → EntityKind
  | opened name attributes selfClosing =>
      opened (name.shift count) (attributes.map (Attribute.shift count)) selfClosing
  | closed name supplied => closed (name.shift count) supplied
  | text => text
  | enclosed kind content => enclosed kind (content.shift count)

def Entity.shift (count : Nat) (entity : Entity) : Entity :=
  ⟨entity.kind.shift count, entity.span.shift count⟩

def ScanError.shift (count : Nat) : ScanError → ScanError
  | tooManyAttributes position limit => tooManyAttributes (position + count) limit
  | outOfMemory position => outOfMemory (position + count)

def Scanned.shift (count : Nat) (scanned : Scanned) : Scanned :=
  ⟨scanned.entities.map (Entity.shift count), scanned.failure.map (ScanError.shift count)⟩

def Cursor.shift (count : Nat) (here : Cursor) : Cursor :=
  ⟨here.position + count, here.rest⟩

def TagHead.shift (count : Nat) (head : TagHead) : TagHead :=
  { head with start := head.start + count }

def Tag.shift (count : Nat) (tag : Tag) : Tag :=
  ⟨tag.head.shift count, tag.name.shift count, tag.attributes.map (Attribute.shift count)⟩

def Mode.shift (count : Nat) : Mode → Mode
  | text start => text (start + count)
  | enclosed kind start => enclosed kind (start + count)
  | tagName head => tagName (head.shift count)
  | tag current => tag (current.shift count)
  | attributeName current start => attributeName (current.shift count) (start + count)
  | beforeEquals current name => beforeEquals (current.shift count) (name.shift count)
  | beforeValue current name => beforeValue (current.shift count) (name.shift count)
  | value current name quote start =>
      value (current.shift count) (name.shift count) quote (start + count)
  | stopped => stopped

def ScanState.shift (count : Nat) (state : ScanState) : ScanState :=
  ⟨state.mode.shift count, state.here.shift count⟩

def Move.shift (count : Nat) (move : Move) : Move :=
  ⟨move.state.shift count, move.emitted.map (Entity.shift count)⟩

def Move.shiftResult (count : Nat) : Except ScanError Move → Except ScanError Move
  | .ok move => .ok (move.shift count)
  | .error failure => .error (failure.shift count)

/-! ## Parts of a step -/

/-- What is found does not depend on where the bytes stand, but where it is found does. -/
theorem Bytes.search?_shift (needle hay : Bytes) (offset count : Nat) :
    search? needle (offset + count) hay = (search? needle offset hay).map (· + count) := by
  induction hay generalizing offset with
  | nil =>
      unfold search?
      split <;> rfl
  | cons b rest ih =>
      unfold search?
      split
      · rfl
      · rw [Nat.add_right_comm]
        exact ih (offset + 1)

theorem Span.isEmpty_shift (count : Nat) (span : Span) :
    (span.shift count).isEmpty = span.isEmpty := by
  simp [isEmpty, shift]

namespace Cursor

theorem find?_shift (count : Nat) (here : Cursor) (needle : Bytes) :
    (here.shift count).find? needle = (here.find? needle).map (· + count) :=
  Bytes.search?_shift needle here.rest here.position count

theorem advance_shift (count distance : Nat) (here : Cursor) :
    (here.shift count).advance distance = (here.advance distance).shift count := by
  induction distance generalizing here with
  | zero => rfl
  | succ distance ih =>
      obtain ⟨position, rest⟩ := here
      cases rest with
      | nil => rfl
      | cons b rest =>
          have hnext := ih ⟨position + 1, rest⟩
          simp only [shift, advance] at hnext ⊢
          rw [Nat.add_right_comm, hnext]

theorem advance_sub_shift (count found distance : Nat) (here : Cursor) :
    (here.shift count).advance (found + count + distance - (here.position + count)) =
      (here.advance (found + distance - here.position)).shift count := by
  rw [advance_shift]
  congr 2
  omega

theorem toEnd_shift (count : Nat) (here : Cursor) :
    (here.shift count).toEnd = here.toEnd.shift count := by
  simp only [toEnd, shift, Nat.add_right_comm]

end Cursor

theorem TagHead.nameStart_shift (count : Nat) (head : TagHead) :
    (head.shift count).nameStart = head.nameStart + count := by
  unfold nameStart shift
  exact Nat.add_right_comm _ _ _

theorem Tag.entities_shift (count : Nat) (tag : Tag) (ending : TagEnd) (stop : Nat) :
    (tag.shift count).entities ending (stop + count) =
      (tag.entities ending stop).map (Entity.shift count) := by
  obtain ⟨⟨start, closing⟩, name, attributes⟩ := tag
  have hattributes : (attributes.map (Attribute.shift count)).toList =
      attributes.toList.map (Attribute.shift count) := Array.toList_map
  cases closing with
  | true => rfl
  | false =>
      simp only [Tag.entities, shift, hattributes]
      cases ending with
      | plain => rfl
      | selfClosing => rfl

namespace Move

variable (count : Nat)

theorem stop_shift (here : Cursor) : stop (here.shift count) = (stop here).shift count := by
  unfold stop
  rw [here.toEnd_shift]
  rfl

theorem finishTag_shift (tag : Tag) (ending : TagEnd) (here : Cursor) :
    finishTag (tag.shift count) ending (here.shift count) =
      (finishTag tag ending here).shift count := by
  have hstop : (here.shift count).position + ending.width = here.position + ending.width + count :=
    Nat.add_right_comm _ _ _
  unfold finishTag
  dsimp only
  rw [hstop, here.advance_shift, tag.entities_shift]
  rfl

/-- An attribute is added further on as well, or refused. -/
theorem addAttribute_shift (maxAttributes : Nat) (tag : Tag) (added : Attribute) (here : Cursor) :
    ((tag.shift count).addAttribute maxAttributes (added.shift count)).map
        (fun enlarged => silent (.tag enlarged) (here.shift count)) =
      shiftResult count ((tag.addAttribute maxAttributes added).map
        fun enlarged => silent (.tag enlarged) here) := by
  have hsize : (tag.shift count).attributes.size = tag.attributes.size := Array.size_map
  have hpush : (tag.shift count).attributes.push (added.shift count) =
      (tag.attributes.push added).map (Attribute.shift count) := Array.map_push.symm
  unfold Tag.addAttribute
  rw [hsize, hpush]
  split
  · rfl
  · rfl

end Move

namespace ScanState

variable (count maxAttributes : Nat) (tag : Tag) (name : Span) (start : Nat) (here next : Cursor)
  (b : UInt8)

theorem textEntity_shift (stop : Nat) :
    textEntity (start + count) (stop + count) =
      (textEntity start stop).map (Entity.shift count) := by
  unfold textEntity
  simp only [Nat.add_lt_add_iff_right]
  split <;> rfl

theorem openMarkup_shift :
    openMarkup (here.shift count) = ((openMarkup here).1.shift count, (openMarkup here).2) := by
  have hpeek : (here.shift count).peekAt? 1 = here.peekAt? 1 := rfl
  unfold openMarkup
  rw [hpeek, show (here.shift count).rest = here.rest from rfl]
  split
  · rfl
  · split
    · rfl
    · split
      · rfl
      · split
        · rfl
        · rfl

theorem stepText_shift :
    stepText (start + count) (here.shift count) = (stepText start here).shift count := by
  unfold stepText
  rw [here.find?_shift]
  cases here.find? [Byte.less] with
  | none =>
      dsimp only [Option.map_none]
      rw [here.toEnd_shift]
      rfl
  | some less =>
      have hless : (here.shift count).advance (less + count - (here.shift count).position) =
          (here.advance (less - here.position)).shift count :=
        here.advance_sub_shift count less 0
      dsimp only [Option.map_some]
      rw [hless, openMarkup_shift, Cursor.advance_shift, textEntity_shift]
      rfl

theorem stepEnclosed_shift (kind : Enclosure) :
    stepEnclosed kind (start + count) (here.shift count) =
      (stepEnclosed kind start here).shift count := by
  unfold stepEnclosed
  rw [here.find?_shift]
  cases here.find? kind.ending with
  | none => exact Move.stop_shift count here
  | some found =>
      have hadvance := here.advance_sub_shift count found kind.ending.length
      have hstop : found + count + kind.ending.length = found + kind.ending.length + count :=
        Nat.add_right_comm _ _ _
      dsimp only [Option.map_some]
      rw [show (here.shift count).position = here.position + count from rfl, hadvance, hstop]
      rfl

theorem stepTagName_shift (head : TagHead) :
    stepTagName (head.shift count) (here.shift count) b (next.shift count) =
      (stepTagName head here b next).shift count := by
  have hspan : (⟨(head.shift count).nameStart, (here.shift count).position⟩ : Span) =
      (⟨head.nameStart, here.position⟩ : Span).shift count :=
    congrArg (Span.mk · _) (head.nameStart_shift count)
  have htag : ∀ name : Span, (⟨head.shift count, name.shift count, #[]⟩ : Tag) =
      (⟨head, name, #[]⟩ : Tag).shift count := by
    intro name
    rw [Tag.shift, Array.map_empty]
  unfold stepTagName
  simp only [hspan, htag, Span.isEmpty_shift, Move.stop_shift, Move.finishTag_shift]
  rw [show (here.shift count).rest = here.rest from rfl]
  split
  · split
    · rfl
    · rfl
  · split
    · split
      · rfl
      · rfl
    · rfl

theorem stepTag_shift :
    stepTag (tag.shift count) (here.shift count) b (next.shift count) =
      (stepTag tag here b next).shift count := by
  unfold stepTag
  rw [show (here.shift count).rest = here.rest from rfl,
    show (tag.shift count).head.closing = tag.head.closing from rfl]
  split
  · exact Move.finishTag_shift count tag _ here
  · split
    · rfl
    · rfl

theorem stepAttributeName_shift :
    stepAttributeName maxAttributes (tag.shift count) (start + count) (here.shift count) b
        (next.shift count) =
      Move.shiftResult count (stepAttributeName maxAttributes tag start here b next) := by
  unfold stepAttributeName
  dsimp only
  rw [show (here.shift count).rest = here.rest from rfl]
  split
  · rfl
  · split
    · rfl
    · split
      · exact Move.addAttribute_shift count maxAttributes tag
          ⟨⟨start, here.position⟩, Span.empty here.position⟩ here
      · rfl

theorem stepBeforeEquals_shift :
    stepBeforeEquals maxAttributes (tag.shift count) (name.shift count) (here.shift count) b
        (next.shift count) =
      Move.shiftResult count (stepBeforeEquals maxAttributes tag name here b next) := by
  unfold stepBeforeEquals
  split
  · rfl
  · split
    · rfl
    · exact Move.addAttribute_shift count maxAttributes tag ⟨name, Span.empty name.stop⟩ here

theorem stepBeforeValue_shift :
    stepBeforeValue maxAttributes (tag.shift count) (name.shift count) (here.shift count) b
        (next.shift count) =
      Move.shiftResult count (stepBeforeValue maxAttributes tag name here b next) := by
  unfold stepBeforeValue
  rw [show (here.shift count).rest = here.rest from rfl]
  split
  · rfl
  · split
    · rfl
    · split
      · exact Move.addAttribute_shift count maxAttributes tag ⟨name, Span.empty here.position⟩ here
      · rfl

theorem stepQuoted_shift (quote : UInt8) :
    stepQuoted maxAttributes (tag.shift count) (name.shift count) quote (start + count)
        (here.shift count) =
      Move.shiftResult count (stepQuoted maxAttributes tag name quote start here) := by
  unfold stepQuoted
  rw [here.find?_shift]
  cases here.find? [quote] with
  | none => exact congrArg Except.ok (Move.stop_shift count here)
  | some found =>
      have hadvance := here.advance_sub_shift count found 1
      dsimp only [Option.map_some]
      rw [show (here.shift count).position = here.position + count from rfl, hadvance]
      exact Move.addAttribute_shift count maxAttributes tag ⟨name, ⟨start, found⟩⟩ _

theorem stepBare_shift :
    stepBare maxAttributes (tag.shift count) (name.shift count) (start + count) (here.shift count) b
        (next.shift count) =
      Move.shiftResult count (stepBare maxAttributes tag name start here b next) := by
  unfold stepBare
  dsimp only
  rw [show (here.shift count).rest = here.rest from rfl]
  split
  · exact Move.addAttribute_shift count maxAttributes tag ⟨name, ⟨start, here.position⟩⟩ next
  · split
    · exact Move.addAttribute_shift count maxAttributes tag ⟨name, ⟨start, here.position⟩⟩ here
    · rfl

/-- A step from further on leads as much further on. -/
theorem step_shift (state : ScanState) :
    (state.shift count).step maxAttributes b (next.shift count) =
      Move.shiftResult count (state.step maxAttributes b next) := by
  obtain ⟨mode, here⟩ := state
  cases mode with
  | text start => exact congrArg Except.ok (stepText_shift count start here)
  | enclosed kind start => exact congrArg Except.ok (stepEnclosed_shift count start here kind)
  | tagName head => exact congrArg Except.ok (stepTagName_shift count here next b head)
  | tag tag => exact congrArg Except.ok (stepTag_shift count tag here next b)
  | attributeName tag start =>
      exact stepAttributeName_shift count maxAttributes tag start here next b
  | beforeEquals tag name => exact stepBeforeEquals_shift count maxAttributes tag name here next b
  | beforeValue tag name => exact stepBeforeValue_shift count maxAttributes tag name here next b
  | value tag name quote start =>
      cases quote with
      | none => exact stepBare_shift count maxAttributes tag name start here next b
      | some quote => exact stepQuoted_shift count maxAttributes tag name start here quote
  | stopped => exact congrArg Except.ok (Move.stop_shift count here)

theorem finish_shift (state : ScanState) :
    (state.shift count).finish = state.finish.map (Entity.shift count) := by
  obtain ⟨mode, here⟩ := state
  cases mode with
  | text start => exact textEntity_shift count start here.position
  | _ => rfl

/-- A run from further on emits the same entities as much further on, and fails alike. -/
theorem run_shift (state : ScanState) :
    (state.shift count).run maxAttributes #[] = (state.run maxAttributes #[]).shift count := by
  generalize hremaining : state.remaining = remaining
  induction remaining using Nat.strongRecOn generalizing state with
  | ind remaining ih =>
      have hstep := fun b next => step_shift count maxAttributes next b state
      cases hrest : state.here.rest with
      | nil =>
          have hfurther : (state.shift count).here.rest = [] := hrest
          rw [run_of_rest_eq_nil hrest, run_of_rest_eq_nil hfurther, finish_shift]
          rfl
      | cons b rest =>
          have hfurther : (state.shift count).here.rest = b :: rest := hrest
          have hsame := hstep b ⟨state.here.position + 1, rest⟩
          have hnext : (⟨state.here.position + 1, rest⟩ : Cursor).shift count =
              ⟨(state.shift count).here.position + 1, rest⟩ :=
            congrArg (Cursor.mk · rest) (Nat.add_right_comm _ _ _)
          rw [hnext] at hsame
          cases hmove : state.step maxAttributes b ⟨state.here.position + 1, rest⟩ with
          | error failure =>
              rw [hmove] at hsame
              rw [run_of_step_eq_error hrest hmove, run_of_step_eq_error hfurther hsame]
              rfl
          | ok move =>
              rw [hmove] at hsame
              have hless := remaining_step_lt hrest hmove
              have hlater : (move.shift count).state.run maxAttributes #[] = _ :=
                ih _ (hremaining ▸ hless) move.state rfl
              rw [run_of_step_eq_ok hrest hmove, run_of_step_eq_ok hfurther hsame, run_eq_append,
                run_eq_append (#[] ++ move.emitted), hlater]
              simp [Scanned.shift, Move.shift]

end ScanState

end VersionedXml
