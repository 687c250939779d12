import VersionedXml.Entity.Step

/-!
# Scanning

Scanning repeats steps until no byte lies ahead.  It is permissive: markup that makes no entity
ends the emission of entities, and it is no failure.  The only failure is a tag with more
attributes than the limit allows.
-/

namespace VersionedXml

namespace ScanState

/-- Emitting nothing, a step behind the next byte lowers the bound from any mode. -/
theorem remaining_silent_lt {state : ScanState} {b : UInt8} {next : Cursor} (mode : Mode)
    (hrest : state.here.rest = b :: next.rest) :
    (Move.silent mode next).state.remaining < state.remaining := by
  have : mode.weight ≤ 1 := by cases mode <;> simp [Mode.weight]
  simp only [Move.silent, remaining, hrest, List.length_cons]
  omega

theorem remaining_toEnd_lt {state : ScanState} {b : UInt8} {next : Cursor} (mode : Mode)
    (hrest : state.here.rest = b :: next.rest) :
    (Move.silent mode state.here.toEnd).state.remaining < state.remaining := by
  have : mode.weight ≤ 1 := by cases mode <;> simp [Mode.weight]
  simp only [Move.silent, remaining, Cursor.toEnd, hrest, List.length_cons, List.length_nil]
  omega

theorem remaining_advance_lt {state : ScanState} {b : UInt8} {next : Cursor} {count : Nat}
    (mode : Mode) (emitted : List Entity) (hrest : state.here.rest = b :: next.rest)
    (hcount : 0 < count) :
    (Move.mk ⟨mode, state.here.advance count⟩ emitted).state.remaining < state.remaining := by
  have : mode.weight ≤ 1 := by cases mode <;> simp [Mode.weight]
  simp only [remaining, Cursor.rest_advance, hrest, List.length_drop, List.length_cons]
  omega

/-- Handing over to `Mode.tag` lowers the bound even if no byte is consumed. -/
theorem remaining_tag_lt {mode : Mode} (tag : Tag) (here : Cursor) (hweight : mode.weight = 1) :
    (Move.silent (.tag tag) here).state.remaining < (ScanState.mk mode here).remaining := by
  simp only [Move.silent, remaining, hweight]
  simp [Mode.weight]

theorem remaining_addAttribute_lt {maxAttributes : Nat} {mode : Mode} {tag : Tag}
    {added : Attribute} {here : Cursor} {move : Move} (hweight : mode.weight = 1)
    (hmove : (tag.addAttribute maxAttributes added).map
      (fun enlarged => Move.silent (.tag enlarged) here) = .ok move) :
    move.state.remaining < (ScanState.mk mode here).remaining := by
  obtain ⟨-, rfl⟩ := Tag.eq_enlarge_of_map_addAttribute hmove
  exact remaining_tag_lt _ here hweight

theorem remaining_stepText_lt {state : ScanState} {b : UInt8} {next : Cursor} (start : Nat)
    (hrest : state.here.rest = b :: next.rest) :
    (stepText start state.here).state.remaining < state.remaining := by
  unfold stepText
  split
  · exact remaining_toEnd_lt _ hrest
  · rename_i less hless
    have hbound := Bytes.search?_add_length_le hless
    have hpositive : 0 < (openMarkup (state.here.advance (less - state.here.position))).2 := by
      unfold openMarkup
      repeat' split
      all_goals simp [Enclosure.opening]
    have hlength := congrArg List.length hrest
    dsimp only
    generalize openMarkup (state.here.advance (less - state.here.position)) = opened at *
    have : opened.1.weight ≤ 1 := by cases opened.1 <;> simp [Mode.weight]
    simp only [remaining, Cursor.rest_advance, List.length_drop, List.length_cons,
      List.length_nil] at *
    omega

theorem remaining_stepEnclosed_lt {state : ScanState} {b : UInt8} {next : Cursor}
    (kind : Enclosure) (start : Nat) (hrest : state.here.rest = b :: next.rest) :
    (stepEnclosed kind start state.here).state.remaining < state.remaining := by
  unfold stepEnclosed
  split
  · exact remaining_toEnd_lt _ hrest
  · rename_i found hfound
    have hle := Bytes.le_of_search? hfound
    have hending : 0 < kind.ending.length := by cases kind <;> simp [Enclosure.ending]
    exact remaining_advance_lt _ _ hrest (by omega)

theorem remaining_stepTagName_lt {state : ScanState} {b : UInt8} {next : Cursor}
    (head : TagHead) (hrest : state.here.rest = b :: next.rest) :
    (stepTagName head state.here b next).state.remaining < state.remaining := by
  unfold stepTagName
  dsimp only
  split
  · split
    · exact remaining_toEnd_lt _ hrest
    · exact remaining_silent_lt _ hrest
  · split
    · rename_i ending _
      split
      · exact remaining_toEnd_lt _ hrest
      · exact remaining_advance_lt _ _ hrest ending.width_pos
    · exact remaining_silent_lt _ hrest

theorem remaining_stepTag_lt {state : ScanState} {b : UInt8} {next : Cursor} {tag : Tag}
    (hmode : state.mode = .tag tag) (hrest : state.here.rest = b :: next.rest) :
    (stepTag tag state.here b next).state.remaining < state.remaining := by
  have hlength := congrArg List.length hrest
  unfold stepTag
  split
  · rename_i ending hending
    have := ending.width_pos
    have := TagEnd.width_le_of_of? hending
    simp only [Move.finishTag, remaining, Cursor.rest_advance, List.length_drop, hmode,
      Mode.weight]
    omega
  · split
    all_goals
      simp only [Move.silent, remaining, hmode, Mode.weight, List.length_cons] at *
      omega

section

variable {maxAttributes : Nat} {tag : Tag} {name : Span} {start : Nat} {here next : Cursor}
  {b : UInt8} {move : Move}

theorem remaining_stepAttributeName_lt (hrest : here.rest = b :: next.rest)
    (hstep : stepAttributeName maxAttributes tag start here b next = .ok move) :
    move.state.remaining < (ScanState.mk (.attributeName tag start) here).remaining := by
  unfold stepAttributeName at hstep
  dsimp only at hstep
  split at hstep
  · cases hstep
    exact remaining_silent_lt _ hrest
  · split at hstep
    · cases hstep
      exact remaining_silent_lt _ hrest
    · split at hstep
      · exact remaining_addAttribute_lt rfl hstep
      · cases hstep
        exact remaining_silent_lt _ hrest

theorem remaining_stepBeforeEquals_lt (hrest : here.rest = b :: next.rest)
    (hstep : stepBeforeEquals maxAttributes tag name here b next = .ok move) :
    move.state.remaining < (ScanState.mk (.beforeEquals tag name) here).remaining := by
  unfold stepBeforeEquals at hstep
  split at hstep
  · cases hstep
    exact remaining_silent_lt _ hrest
  · split at hstep
    · cases hstep
      exact remaining_silent_lt _ hrest
    · exact remaining_addAttribute_lt rfl hstep

theorem remaining_stepBeforeValue_lt (hrest : here.rest = b :: next.rest)
    (hstep : stepBeforeValue maxAttributes tag name here b next = .ok move) :
    move.state.remaining < (ScanState.mk (.beforeValue tag name) here).remaining := by
  unfold stepBeforeValue at hstep
  split at hstep
  · cases hstep
    exact remaining_silent_lt _ hrest
  · split at hstep
    · cases hstep
      exact remaining_silent_lt _ hrest
    · split at hstep
      · exact remaining_addAttribute_lt rfl hstep
      · cases hstep
        exact remaining_silent_lt _ hrest

theorem remaining_stepQuoted_lt {quote : UInt8} (hrest : here.rest = b :: next.rest)
    (hstep : stepQuoted maxAttributes tag name quote start here = .ok move) :
    move.state.remaining < (ScanState.mk (.value tag name (some quote) start) here).remaining := by
  unfold stepQuoted at hstep
  split at hstep
  · cases hstep
    exact remaining_toEnd_lt _ hrest
  · rename_i found hfound
    have hle : here.position ≤ found := Bytes.le_of_search? hfound
    have hcount : 0 < found + 1 - here.position := by omega
    obtain ⟨-, rfl⟩ := Tag.eq_enlarge_of_map_addAttribute hstep
    exact remaining_advance_lt _ _ (show (ScanState.mk _ here).here.rest = _ from hrest) hcount

theorem remaining_stepBare_lt (hrest : here.rest = b :: next.rest)
    (hstep : stepBare maxAttributes tag name start here b next = .ok move) :
    move.state.remaining < (ScanState.mk (.value tag name none start) here).remaining := by
  unfold stepBare at hstep
  dsimp only at hstep
  split at hstep
  · obtain ⟨-, rfl⟩ := Tag.eq_enlarge_of_map_addAttribute hstep
    exact remaining_silent_lt _ hrest
  · split at hstep
    · exact remaining_addAttribute_lt rfl hstep
    · cases hstep
      exact remaining_silent_lt _ hrest

end

/-- Every step that does not fail lowers the bound on the steps that are left. -/
theorem remaining_step_lt {maxAttributes : Nat} {state : ScanState} {b : UInt8} {next : Cursor}
    {move : Move} (hrest : state.here.rest = b :: next.rest)
    (hstep : state.step maxAttributes b next = .ok move) :
    move.state.remaining < state.remaining := by
  obtain ⟨mode, here⟩ := state
  cases mode with
  | text start =>
      cases hstep
      exact remaining_stepText_lt start hrest
  | enclosed kind start =>
      cases hstep
      exact remaining_stepEnclosed_lt kind start hrest
  | tagName head =>
      cases hstep
      exact remaining_stepTagName_lt head hrest
  | tag tag =>
      cases hstep
      exact remaining_stepTag_lt rfl hrest
  | attributeName tag start => exact remaining_stepAttributeName_lt hrest hstep
  | beforeEquals tag name => exact remaining_stepBeforeEquals_lt hrest hstep
  | beforeValue tag name => exact remaining_stepBeforeValue_lt hrest hstep
  | value tag name quote start =>
      cases quote with
      | none => exact remaining_stepBare_lt hrest hstep
      | some quote => exact remaining_stepQuoted_lt hrest hstep
  | stopped =>
      cases hstep
      exact remaining_toEnd_lt _ hrest

/-- At the end of the input a text in progress is complete; anything else is dropped. -/
def finish (state : ScanState) : List Entity :=
  match state.mode with
  | .text start => textEntity start state.here.position
  | _ => []

end ScanState

/-- What scanning emitted, and the failure that ended it, if any. -/
structure Scanned where
  entities : List Entity
  failure : Option ScanError
  deriving DecidableEq, Repr

def Scanned.result (scanned : Scanned) : Except ScanError (List Entity) :=
  match scanned.failure with
  | none => .ok scanned.entities
  | some failure => .error failure

/-- Repeats steps to the end of the input, behind the entities emitted already. -/
def ScanState.run (maxAttributes : Nat) (emitted : Array Entity) (state : ScanState) : Scanned :=
  match hrest : state.here.rest with
  | [] => ⟨(emitted ++ state.finish).toList, none⟩
  | b :: rest =>
      match hstep : state.step maxAttributes b ⟨state.here.position + 1, rest⟩ with
      | .error failure => ⟨emitted.toList, some failure⟩
      | .ok move =>
          have := remaining_step_lt hrest hstep
          run maxAttributes (emitted ++ move.emitted) move.state
  termination_by state.remaining

def scan (maxAttributes : Nat) (input : Buffer) : Scanned :=
  (ScanState.start input).run maxAttributes #[]

end VersionedXml
