import VersionedXml.Proofs.Entity.Placement

/-!
# Entities of a longer input

Cutting an input short never changes what was emitted before the cut.  Only the text that the end of
the input completes may go on behind the cut.

The run up to the cut and the run over the longer input make the same steps for as long as what a step
looks at lies before the cut.  The first step that looks behind it completes nothing that the run up to
the cut does not complete, and up to the cut there is nothing more to emit.
-/

namespace VersionedXml

/-! ## Looking ahead -/

/-- A search that succeeds does not look behind what it finds. -/
theorem Bytes.search?_append {needle hay : Bytes} {offset found : Nat}
    (hfound : search? needle offset hay = some found) (more : Bytes) :
    search? needle offset (hay ++ more) = some found := by
  obtain ⟨before, after, rfl, rfl, hfirst⟩ := exists_of_search?_eq_some hfound
  rw [List.append_assoc]
  refine search?_eq_some (fun left right hsplit hright hbegins => ?_) offset
  refine hfirst left right hsplit hright (List.prefix_of_prefix_length_le hbegins
    ⟨more, by rw [List.append_assoc]⟩ ?_)
  simp only [List.length_append]
  omega

/-- The end of a tag is seen without what comes behind the next byte, unless there is no next byte. -/
theorem TagEnd.of?_append (b : UInt8) (rest more : Bytes) :
    of? (b :: (rest ++ more)) = of? (b :: rest) ∨ of? (b :: rest) = none ∧ rest = [] := by
  cases rest with
  | cons c rest => exact .inl rfl
  | nil =>
      by_cases hgreater : b = Byte.greater
      · exact .inl (by simp only [of?, if_pos hgreater])
      · exact .inr ⟨by simp [of?, hgreater], rfl⟩

namespace Cursor

def extend (more : Bytes) (here : Cursor) : Cursor :=
  ⟨here.position, here.rest ++ more⟩

@[simp]
theorem position_extend (more : Bytes) (here : Cursor) :
    (here.extend more).position = here.position := rfl

theorem advance_extend {here : Cursor} {count : Nat} (hcount : count ≤ here.rest.length)
    (more : Bytes) : (here.extend more).advance count = (here.advance count).extend more := by
  induction count generalizing here with
  | zero => rfl
  | succ count ih =>
      obtain ⟨position, rest⟩ := here
      cases rest with
      | nil => cases hcount
      | cons b rest =>
          have hnext : count ≤ (⟨position + 1, rest⟩ : Cursor).rest.length :=
            Nat.le_of_succ_le_succ hcount
          exact ih hnext

theorem find?_extend {here : Cursor} {needle : Bytes} {found : Nat}
    (hfound : here.find? needle = some found) (more : Bytes) :
    (here.extend more).find? needle = some found :=
  Bytes.search?_append hfound more

/-- Up to the end of what is found ahead there are no bytes but those of the input. -/
theorem advance_extend_of_find? {here : Cursor} {needle : Bytes} {found count : Nat}
    (hfound : here.find? needle = some found) (hcount : count ≤ needle.length) (more : Bytes) :
    (here.extend more).advance (found + count - here.position) =
      (here.advance (found + count - here.position)).extend more := by
  have hlength := Bytes.search?_add_length_le hfound
  exact advance_extend (by omega) more

end Cursor

/-! ## One step -/

def ScanState.extend (more : Bytes) (state : ScanState) : ScanState :=
  ⟨state.mode, state.here.extend more⟩

def Move.extend (more : Bytes) (move : Move) : Move :=
  ⟨move.state.extend more, move.emitted⟩

namespace ScanState

/-- Nothing more is completed before the end of the input. -/
inductive Ceases (state : ScanState) : Prop where
  | ended (hrest : state.here.rest = [])
  | naming {head : TagHead} (hmode : state.mode = .tagName head)
      (hbytes : ∀ b ∈ state.here.rest, Byte.isNameByte b = true)

/-- How the step on an input, which is the first result, compares with the step on a longer input. -/
inductive Resembles (more : Bytes) : Except ScanError Move → Except ScanError Move → Prop where
  /-- The step does not look behind the end. -/
  | same (result : Except ScanError Move) : Resembles more result (result.map (Move.extend more))
  /-- Nothing is completed any more, and only the longer input shows what comes. -/
  | waits {state : ScanState} (hceases : state.Ceases) (other : Except ScanError Move) :
      Resembles more (.ok ⟨state, []⟩) other
  /-- The same is completed, and only the longer input shows what begins. -/
  | begins {state other : ScanState} (hceases : state.Ceases) (htext : state.mode.isText = false)
      (emitted : List Entity) : Resembles more (.ok ⟨state, emitted⟩) (.ok ⟨other, emitted⟩)

/-- A cut in the opening of an enclosed section leaves the name of a tag. -/
theorem openMarkup_of_cut {kind : Enclosure} {here : Cursor} (hcut : here.rest <+: kind.opening)
    (hne : here.rest ≠ kind.opening) : ∃ head count, openMarkup here = (.tagName head, count) := by
  have hapart : ∀ first second : Enclosure, first.opening <+: second.opening →
      first.opening = second.opening := by
    intro first second
    cases first <;> cases second <;> decide
  have hnone : ∀ other : Enclosure, ¬ other.opening.isPrefixOf here.rest = true := by
    intro other hbegins
    have hother := List.isPrefixOf_iff_prefix.mp hbegins
    have hsame := hapart other kind (hother.trans hcut)
    exact hne (hcut.eq_of_length_le (hsame ▸ hother.length_le))
  unfold openMarkup
  rw [if_neg (hnone _), if_neg (hnone _), if_neg (hnone _)]
  split
  · exact ⟨_, _, rfl⟩
  · exact ⟨_, _, rfl⟩

/-- What begins with a `<` is seen without more bytes, unless the input ends in an opening. -/
theorem openMarkup_extend {here : Cursor} {rest : Bytes} (hrest : here.rest = Byte.less :: rest)
    (more : Bytes) :
    openMarkup (here.extend more) = openMarkup here ∨
      ∃ kind : Enclosure, here.rest <+: kind.opening ∧ here.rest ≠ kind.opening := by
  by_cases hcut : ∃ kind : Enclosure, here.rest <+: kind.opening ∧ here.rest ≠ kind.opening
  · exact .inr hcut
  · left
    -- No test of the opening bytes changes its answer, for then they would end in an opening.
    have hbegins : ∀ kind : Enclosure,
        kind.opening.isPrefixOf (here.extend more).rest = kind.opening.isPrefixOf here.rest := by
      intro kind
      rw [Bool.eq_iff_iff, List.isPrefixOf_iff_prefix, List.isPrefixOf_iff_prefix]
      refine ⟨fun hlong => ?_, fun hshort => hshort.trans (List.prefix_append _ _)⟩
      rcases List.prefix_or_prefix_of_prefix hlong (List.prefix_append here.rest more) with
        hshort | hinside
      · exact hshort
      · by_cases hsame : here.rest = kind.opening
        · exact hsame ▸ List.prefix_rfl
        · exact absurd ⟨kind, hinside, hsame⟩ hcut
    have hsecond : (here.extend more).peekAt? 1 = here.peekAt? 1 := by
      cases rest with
      | nil => exact absurd ⟨.instruction, hrest ▸ by decide, hrest ▸ by decide⟩ hcut
      | cons c rest =>
          unfold Cursor.peekAt? Cursor.extend
          rw [hrest]
          rfl
    unfold openMarkup
    simp only [hbegins, hsecond]
    rfl

/-- What begins with a `<` takes its width of the bytes ahead. -/
theorem openMarkup_width_le {here : Cursor} {rest : Bytes}
    (hrest : here.rest = Byte.less :: rest) : (openMarkup here).2 ≤ here.rest.length := by
  have hopening : ∀ {kind : Enclosure}, kind.opening.isPrefixOf here.rest = true →
      kind.opening.length ≤ here.rest.length :=
    fun hbegins => (List.isPrefixOf_iff_prefix.mp hbegins).length_le
  unfold openMarkup
  split
  · exact hopening ‹_›
  · split
    · exact hopening ‹_›
    · split
      · exact hopening ‹_›
      · split
        · rename_i hslash
          exact (List.getElem?_eq_some_iff.mp hslash).1
        · rw [hrest]
          exact Nat.succ_le_succ (Nat.zero_le _)

section

variable {maxAttributes : Nat} (more : Bytes) (tag : Tag) (name : Span) (position : Nat) (b : UInt8)
  (rest : Bytes)

theorem resembles_stop (here : Cursor) (other : Except ScanError Move) :
    Resembles more (.ok (.stop here)) other :=
  .waits (.ended rfl) other

theorem resembles_addAttribute (added : Attribute) (here : Cursor) :
    Resembles more
      ((tag.addAttribute maxAttributes added).map fun enlarged => .silent (.tag enlarged) here)
      ((tag.addAttribute maxAttributes added).map fun enlarged =>
        .silent (.tag enlarged) (here.extend more)) := by
  cases tag.addAttribute maxAttributes added with
  | error failure => exact .same (.error failure)
  | ok enlarged => exact .same (.ok _)

theorem resembles_finishTag {ending : TagEnd} {here : Cursor}
    (hending : TagEnd.of? here.rest = some ending) :
    Resembles more (.ok (.finishTag tag ending here))
      (.ok (.finishTag tag ending (here.extend more))) := by
  have hadvance := Cursor.advance_extend (TagEnd.width_le_of_of? hending) more
  have hmove : Move.finishTag tag ending (here.extend more) =
      (Move.finishTag tag ending here).extend more := by
    unfold Move.finishTag
    rw [hadvance]
    rfl
  rw [hmove]
  exact .same (.ok _)

theorem resembles_stepText (start : Nat) (here : Cursor) :
    Resembles more (.ok (stepText start here)) (.ok (stepText start (here.extend more))) := by
  unfold stepText
  cases hfound : here.find? [Byte.less] with
  | none => exact .waits (.ended rfl) _
  | some less =>
      have hadvance : (here.extend more).advance (less - here.position) =
          (here.advance (less - here.position)).extend more :=
        Cursor.advance_extend_of_find? hfound (Nat.zero_le _) more
      obtain ⟨before, after, -, -, -, hahead⟩ :=
        Cursor.exists_of_find? (List.cons_ne_nil _ _) hfound
      have hrest : (here.advance (less - here.position)).rest = Byte.less :: after :=
        congrArg Cursor.rest (hahead 0)
      rw [Cursor.find?_extend hfound more]
      dsimp only
      rw [Cursor.position_extend, hadvance]
      generalize here.advance (less - here.position) = atLess at hrest
      rcases openMarkup_extend hrest more with hsame | ⟨kind, hcut, hne⟩
      · rw [hsame, Cursor.advance_extend (openMarkup_width_le hrest) more]
        exact .same (.ok _)
      · -- The bytes of an opening that the cut splits are read as the name of a tag up to the cut.
        obtain ⟨head, count, hopened⟩ := openMarkup_of_cut hcut hne
        rw [hopened]
        refine .begins (.naming rfl fun c hc => ?_) rfl _
        rw [Cursor.rest_advance] at hc
        exact isNameByte_of_mem_opening (hcut.subset (List.mem_of_mem_drop hc))

theorem resembles_stepEnclosed (kind : Enclosure) (start : Nat) (here : Cursor) :
    Resembles more (.ok (stepEnclosed kind start here))
      (.ok (stepEnclosed kind start (here.extend more))) := by
  unfold stepEnclosed
  cases hfound : here.find? kind.ending with
  | none => exact resembles_stop more here _
  | some found =>
      rw [Cursor.find?_extend hfound more]
      dsimp only
      rw [Cursor.position_extend, Cursor.advance_extend_of_find? hfound (Nat.le_refl _) more]
      exact .same (.ok _)

theorem resembles_stepTagName (head : TagHead) :
    Resembles more (.ok (stepTagName head ⟨position, b :: rest⟩ b ⟨position + 1, rest⟩))
      (.ok (stepTagName head ⟨position, b :: (rest ++ more)⟩ b ⟨position + 1, rest ++ more⟩)) := by
  unfold stepTagName
  dsimp only
  split
  · split
    · exact resembles_stop more _ _
    · exact .same (.ok _)
  · rcases TagEnd.of?_append b rest more with hsame | ⟨hnone, rfl⟩
    · rw [hsame]
      cases hending : TagEnd.of? (b :: rest) with
      | none => exact .same (.ok _)
      | some ending =>
          dsimp only
          split
          · exact resembles_stop more _ _
          · exact resembles_finishTag more _ hending
    · rw [hnone]
      exact .waits (.ended rfl) _

theorem resembles_stepTag :
    Resembles more (.ok (stepTag tag ⟨position, b :: rest⟩ b ⟨position + 1, rest⟩))
      (.ok (stepTag tag ⟨position, b :: (rest ++ more)⟩ b ⟨position + 1, rest ++ more⟩)) := by
  unfold stepTag
  dsimp only
  rcases TagEnd.of?_append b rest more with hsame | ⟨hnone, rfl⟩
  · rw [hsame]
    cases hending : TagEnd.of? (b :: rest) with
    | some ending => exact resembles_finishTag more tag hending
    | none =>
        dsimp only
        split
        · exact .same (.ok _)
        · exact .same (.ok _)
  · rw [hnone]
    dsimp only
    split
    · exact .waits (.ended rfl) _
    · exact .waits (.ended rfl) _

theorem resembles_stepAttributeName (start : Nat) :
    Resembles more
      (stepAttributeName maxAttributes tag start ⟨position, b :: rest⟩ b ⟨position + 1, rest⟩)
      (stepAttributeName maxAttributes tag start ⟨position, b :: (rest ++ more)⟩ b
        ⟨position + 1, rest ++ more⟩) := by
  unfold stepAttributeName
  dsimp only
  split
  · exact .same (.ok _)
  · split
    · exact .same (.ok _)
    · rcases TagEnd.of?_append b rest more with hsame | ⟨hnone, rfl⟩
      · rw [hsame]
        split
        · exact resembles_addAttribute more tag _ ⟨position, b :: rest⟩
        · exact .same (.ok _)
      · rw [hnone]
        exact .waits (.ended rfl) _

theorem resembles_stepBeforeEquals :
    Resembles more
      (stepBeforeEquals maxAttributes tag name ⟨position, b :: rest⟩ b ⟨position + 1, rest⟩)
      (stepBeforeEquals maxAttributes tag name ⟨position, b :: (rest ++ more)⟩ b
        ⟨position + 1, rest ++ more⟩) := by
  unfold stepBeforeEquals
  split
  · exact .same (.ok _)
  · split
    · exact .same (.ok _)
    · exact resembles_addAttribute more tag _ ⟨position, b :: rest⟩

theorem resembles_stepBeforeValue :
    Resembles more
      (stepBeforeValue maxAttributes tag name ⟨position, b :: rest⟩ b ⟨position + 1, rest⟩)
      (stepBeforeValue maxAttributes tag name ⟨position, b :: (rest ++ more)⟩ b
        ⟨position + 1, rest ++ more⟩) := by
  unfold stepBeforeValue
  dsimp only
  split
  · exact .same (.ok _)
  · split
    · exact .same (.ok _)
    · rcases TagEnd.of?_append b rest more with hsame | ⟨hnone, rfl⟩
      · rw [hsame]
        split
        · exact resembles_addAttribute more tag _ ⟨position, b :: rest⟩
        · exact .same (.ok _)
      · rw [hnone]
        exact .waits (.ended rfl) _

theorem resembles_stepQuoted (quote : UInt8) (start : Nat) (here : Cursor) :
    Resembles more (stepQuoted maxAttributes tag name quote start here)
      (stepQuoted maxAttributes tag name quote start (here.extend more)) := by
  unfold stepQuoted
  cases hfound : here.find? [quote] with
  | none => exact resembles_stop more here _
  | some found =>
      rw [Cursor.find?_extend hfound more]
      dsimp only
      rw [Cursor.position_extend, Cursor.advance_extend_of_find? hfound (Nat.le_refl 1) more]
      exact resembles_addAttribute more tag _ _

theorem resembles_stepBare (start : Nat) :
    Resembles more
      (stepBare maxAttributes tag name start ⟨position, b :: rest⟩ b ⟨position + 1, rest⟩)
      (stepBare maxAttributes tag name start ⟨position, b :: (rest ++ more)⟩ b
        ⟨position + 1, rest ++ more⟩) := by
  unfold stepBare
  dsimp only
  split
  · exact resembles_addAttribute more tag _ ⟨position + 1, rest⟩
  · rcases TagEnd.of?_append b rest more with hsame | ⟨hnone, rfl⟩
    · rw [hsame]
      split
      · exact resembles_addAttribute more tag _ ⟨position, b :: rest⟩
      · exact .same (.ok _)
    · rw [hnone]
      exact .waits (.ended rfl) _

end

/-- A step that looks behind the end of the input is the last one that matters before it. -/
theorem resembles_step {maxAttributes : Nat} {state : ScanState} {b : UInt8} {rest : Bytes}
    (hrest : state.here.rest = b :: rest) (more : Bytes) :
    Resembles more (state.step maxAttributes b ⟨state.here.position + 1, rest⟩)
      ((state.extend more).step maxAttributes b ⟨state.here.position + 1, rest ++ more⟩) := by
  obtain ⟨mode, position, ahead⟩ := state
  cases hrest
  cases mode with
  | text start => exact resembles_stepText more start _
  | enclosed kind start => exact resembles_stepEnclosed more kind start _
  | tagName head => exact resembles_stepTagName more position b rest head
  | tag tag => exact resembles_stepTag more tag position b rest
  | attributeName tag start => exact resembles_stepAttributeName more tag position b rest start
  | beforeEquals tag name => exact resembles_stepBeforeEquals more tag name position b rest
  | beforeValue tag name => exact resembles_stepBeforeValue more tag name position b rest
  | value tag name quote start =>
      cases quote with
      | none => exact resembles_stepBare more tag name position b rest start
      | some quote => exact resembles_stepQuoted more tag name quote start _
  | stopped => exact resembles_stop more _ _

end ScanState

/-! ## Whole runs -/

def Entity.IsFlush (size : Nat) (entities : List Entity) : Prop :=
  entities = [] ∨ ∃ start, entities = [⟨.text, ⟨start, size⟩⟩]

/-- How scanning an input of some size compares with scanning a longer one. -/
inductive Scanned.Precedes (size : Nat) : Scanned → Scanned → Prop where
  /-- What comes behind a failure does not matter. -/
  | failed (entities : List Entity) (failure : ScanError) :
      Precedes size ⟨entities, some failure⟩ ⟨entities, some failure⟩
  /-- All entities but a text at the end come first in the longer input. -/
  | finished {front flush : List Entity} {long : Scanned} (hflush : Entity.IsFlush size flush)
      (hfront : front <+: long.entities) : Precedes size ⟨front ++ flush, none⟩ long

namespace ScanState

theorem isFlush_textEntity (start stop : Nat) : Entity.IsFlush stop (textEntity start stop) := by
  unfold textEntity
  split
  · exact .inr ⟨start, rfl⟩
  · exact .inl rfl

section

variable {maxAttributes : Nat} {input : Buffer} {state : ScanState}

theorem isPrefix_run (emitted : Array Entity) :
    emitted.toList <+: (state.run maxAttributes emitted).entities := by
  rw [run_eq_append]
  exact List.prefix_append _ _

/-- A run that completes nothing more emits what the end of the input completes. -/
theorem Ceases.run_eq (hceases : state.Ceases) (emitted : Array Entity) :
    state.run maxAttributes emitted = ⟨emitted.toList ++ state.finish, none⟩ := by
  cases hceases with
  | ended hrest => exact run_of_rest_eq_nil hrest emitted
  | @naming head hmode hbytes =>
      obtain ⟨mode, here⟩ := state
      cases hmode
      have hleads : Leads maxAttributes ⟨.tagName head, ⟨here.position, here.rest ++ []⟩⟩ [] _ :=
        leads_tagName [] hbytes nofun head here.position
      rw [List.append_nil] at hleads
      rw [hleads emitted, run_of_rest_eq_nil rfl]
      simp [finish]

/-- What the end of the input completes is a text, if anything, and it reaches to the end. -/
theorem Ceases.isFlush_finish (hceases : state.Ceases) (hin : state.here.IsIn input) :
    Entity.IsFlush input.size state.finish := by
  obtain ⟨mode, here⟩ := state
  cases hceases with
  | naming hmode _ =>
      cases hmode
      exact .inl rfl
  | ended hrest =>
      have hend : here.position = input.size := by
        rw [← hin.position_add_length, hrest]
        rfl
      cases mode with
      | text start => exact hend ▸ isFlush_textEntity start here.position
      | _ => exact .inl rfl

/-- Where nothing more is completed, a longer input has what was emitted at its front. -/
theorem Ceases.precedes (hceases : state.Ceases) (hin : state.here.IsIn input)
    {emitted : Array Entity} {long : Scanned} (hfront : emitted.toList <+: long.entities) :
    Scanned.Precedes input.size (state.run maxAttributes emitted) long := by
  rw [hceases.run_eq]
  exact .finished (hceases.isFlush_finish hin) hfront

/-- A run on an input emits what a run on a longer input emits first. -/
theorem Valid.precedes_run (hvalid : state.Valid maxAttributes input) (more : Bytes)
    (emitted : Array Entity) :
    Scanned.Precedes input.size (state.run maxAttributes emitted)
      ((state.extend more).run maxAttributes emitted) := by
  generalize hremaining : state.remaining = remaining
  induction remaining using Nat.strongRecOn generalizing state emitted with
  | ind remaining ih =>
      cases hrest : state.here.rest with
      | nil => exact (Ceases.ended hrest).precedes hvalid.isIn (isPrefix_run emitted)
      | cons b rest =>
          have hlonger : (state.extend more).here.rest = b :: (rest ++ more) :=
            congrArg (· ++ more) hrest
          have hresembles : Resembles more (state.step maxAttributes b _) _ :=
            resembles_step hrest more
          -- Either both runs go on from alike states, or the shorter one has nothing to complete.
          generalize hlong : (state.extend more).step maxAttributes b
            ⟨state.here.position + 1, rest ++ more⟩ = long at hresembles
          cases hmove : state.step maxAttributes b ⟨state.here.position + 1, rest⟩ with
          | error failure =>
              rw [hmove] at hresembles
              cases hresembles
              rw [run_of_step_eq_error hrest hmove, run_of_step_eq_error hlonger hlong]
              exact .failed _ failure
          | ok move =>
              have hnext := (keeps_step hvalid hrest hmove).valid
              have hless := remaining_step_lt hrest hmove
              rw [hmove] at hresembles
              rw [run_of_step_eq_ok hrest hmove]
              cases hresembles with
              | same =>
                  rw [run_of_step_eq_ok hlonger hlong]
                  exact ih _ (hremaining ▸ hless) hnext _ rfl
              | waits hceases =>
                  refine hceases.precedes hnext.isIn ?_
                  rw [Array.toList_appendList, List.append_nil]
                  exact isPrefix_run emitted
              | begins hceases _ =>
                  rw [run_of_step_eq_ok hlonger hlong]
                  exact hceases.precedes hnext.isIn (isPrefix_run _)

end

end ScanState

/-- Scanning a longer input emits the same entities first, and it fails as scanning the shorter one
does. -/
theorem scan_precedes_append (maxAttributes : Nat) (input more : Buffer) :
    Scanned.Precedes input.size (scan maxAttributes input) (scan maxAttributes (input ++ more)) := by
  have hstart : (ScanState.start input).extend more.toList = ScanState.start (input ++ more) := by
    unfold ScanState.start Cursor.start
    rw [Array.toList_append]
    rfl
  have hvalid := (ScanState.start_tiled maxAttributes input).valid
  have hprecedes := hvalid.precedes_run more.toList #[]
  rw [hstart] at hprecedes
  exact hprecedes

/-! ## What a sink receives -/

def handed (maxAttributes : Nat) (input : Buffer) : List PlacedEntity :=
  (scanInto maxAttributes (fun known placed => known ++ [placed]) [] input).1

/-- A text that reaches to the end of the input may go on behind it. -/
def PlacedEntity.isOpen (size : Nat) (placed : PlacedEntity) : Bool :=
  placed.entity.kind = .text && placed.entity.span.stop = size

/-- The entities without a last one that may go on. -/
def settled (size : Nat) (handed : List PlacedEntity) : List PlacedEntity :=
  if handed.getLast?.any (PlacedEntity.isOpen size) then handed.dropLast else handed

theorem handed_eq_map (maxAttributes : Nat) (input : Buffer) :
    handed maxAttributes input =
      (scan maxAttributes input).entities.map (Entity.placedIn input) := by
  rw [handed, scanInto_eq, Entity.placeAll_eq_map, List.foldl_append_eq_append, List.nil_append,
    ← List.flatMap_def, List.flatMap_singleton']

theorem settled_isPrefix (size : Nat) (handed : List PlacedEntity) :
    settled size handed <+: handed := by
  unfold settled
  split
  · exact List.dropLast_prefix handed
  · exact List.prefix_rfl

theorem settled_concat {size : Nat} {last : PlacedEntity} (hopen : last.isOpen size = true)
    (front : List PlacedEntity) : settled size (front ++ [last]) = front := by
  rw [settled, List.getLast?_concat, Option.any_some, if_pos hopen, List.dropLast_concat]

/-- Without a text that the end of the input completes, only entities before it are left. -/
theorem settled_append_isPrefix {input : Buffer} {front flush : List Entity}
    (hflush : Entity.IsFlush input.size flush) :
    settled input.size ((front ++ flush).map (Entity.placedIn input)) <+:
      front.map (Entity.placedIn input) := by
  rcases hflush with rfl | ⟨start, rfl⟩
  · rw [List.append_nil]
    exact settled_isPrefix _ _
  · have hopen : (Entity.placedIn input ⟨.text, ⟨start, input.size⟩⟩).isOpen input.size = true := by
      simp [PlacedEntity.isOpen, Entity.placedIn]
    have hfront := settled_concat hopen (front.map (Entity.placedIn input))
    rw [List.map_append]
    exact ⟨[], (List.append_nil _).trans hfront⟩

/-- Cutting an input short never changes what was handed over before the cut, positions included, but
for a text that reaches to the cut.  If scanning fails before the cut, the longer input is handed over
and fails in the same way. -/
theorem scanInto_append (limits : Limits) (input more : Buffer) :
    settled input.size (handed limits.maxAttributes input) <+:
        handed limits.maxAttributes (input ++ more) ∧
      ∀ (σ : Type) (receive : σ → PlacedEntity → σ) (sink : σ) (failure : ScanError),
        (scanInto limits.maxAttributes receive sink input).2 = .error failure →
          scanInto limits.maxAttributes receive sink (input ++ more) =
            scanInto limits.maxAttributes receive sink input := by
  have hinside := scan_inside limits.maxAttributes input
  have hprecedes := scan_precedes_append limits.maxAttributes input more
  simp only [handed_eq_map, scanInto_eq, Entity.placeAll_eq_map]
  generalize scan limits.maxAttributes (input ++ more) = long at hprecedes ⊢
  generalize scan limits.maxAttributes input = short at hinside hprecedes ⊢
  cases hprecedes with
  | failed entities failure =>
      have hplaced := Entity.map_placedIn_append hinside more
      refine ⟨?_, fun σ receive sink found hfound => ?_⟩
      · rw [hplaced]
        exact settled_isPrefix _ _
      · rw [hplaced]
  | @finished front flush long hflush hfront =>
      have hplaced := Entity.map_placedIn_append
        (fun entity hentity => hinside entity (List.mem_append_left flush hentity)) more
      refine ⟨?_, fun σ receive sink failure hfailure => ?_⟩
      · refine (settled_append_isPrefix hflush).trans ?_
        rw [← hplaced]
        exact hfront.map _
      · cases hfailure

/-- The input `x<a b c >`, whose tag has two attributes. -/
def twoAttributes : Buffer :=
  #[0x78, 0x3c, 0x61, 0x20, 0x62, 0x20, 0x63, 0x20, 0x3e]

/-- Where one attribute is allowed, the text before the tag is handed over, whatever comes behind the
tag. -/
theorem scanInto_append_twoAttributes :
    ∃ placed failure, scanInto 1 (fun _ placed => some placed) none twoAttributes =
        (some placed, .error failure) ∧ placed.entity = ⟨.text, ⟨0, 1⟩⟩ ∧
      scanInto 1 (fun _ placed => some placed) none (twoAttributes ++ #[0x79, 0x3c, 0x2f, 0x61, 0x3e]) =
        (some placed, .error failure) := by
  have hfails : scanInto 1 (fun _ placed => some placed) none twoAttributes =
      (some ⟨⟨.text, ⟨0, 1⟩⟩, ⟨1, 1⟩, ⟨1, 2⟩⟩, .error (.tooManyAttributes 1 1)) := by
    decide +kernel
  refine ⟨_, _, hfails, rfl, ?_⟩
  obtain ⟨-, hsame⟩ := scanInto_append (Limits.withMaxAttributes {} 1) twoAttributes
    #[0x79, 0x3c, 0x2f, 0x61, 0x3e]
  exact (hsame _ _ _ _ (congrArg Prod.snd hfails)).trans hfails

end VersionedXml
