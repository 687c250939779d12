import VersionedXml.Proofs.Entity.Markup

/-!
# The shape of entities

Whatever the input is, the entities that scanning emits lie side by side and have the shape of their
kind: names end where they should, and texts and enclosed sections hold nothing that would end them.
This holds by an invariant of the scanner, which says in each mode what has been read of the entity
in progress.
-/

namespace VersionedXml

/-! ## Bytes behind a cursor -/

/-- Bytes ahead are appended to what a span holds when it reaches over them. -/
theorem Cursor.IsIn.slice_append {here : Cursor} {input : Buffer} (hin : here.IsIn input)
    {before after : Bytes} (hrest : here.rest = before ++ after) {start : Nat}
    (hstart : start ≤ here.position) :
    (⟨start, here.position + before.length⟩ : Span).slice input =
      (⟨start, here.position⟩ : Span).slice input ++ before := by
  obtain ⟨behind, hinput, hbehind⟩ : ∃ behind, input.toList = behind ++ here.rest ∧
      behind.length = here.position := by
    refine ⟨input.toList.take here.position, ?_, by simp [hin.1]⟩
    rw [hin.2, List.take_append_drop]
  have htake : (behind.take start).length = start := by simp [hbehind, hstart]
  have hdrop : (behind.drop start).length = here.position - start := by simp [hbehind]
  have hsplit : input.toList = behind.take start ++ (behind.drop start ++ here.rest) := by
    rw [← List.append_assoc, List.take_append_drop, hinput]
  have hshort : (⟨start, here.position⟩ : Span).slice input = behind.drop start :=
    Span.slice_eq_of_append hsplit htake.symm (by omega)
  rw [hrest, ← List.append_assoc (behind.drop start)] at hsplit
  rw [hshort]
  refine Span.slice_eq_of_append hsplit htake.symm ?_
  rw [List.length_append]
  omega

theorem Cursor.IsIn.next {here : Cursor} {input : Buffer} (hin : here.IsIn input) {b : UInt8}
    {rest : Bytes} (hrest : here.rest = b :: rest) :
    (⟨here.position + 1, rest⟩ : Cursor).IsIn input := by
  obtain ⟨position, ahead⟩ := here
  cases hrest
  exact hin.advance 1

theorem Cursor.IsIn.slice_concat {here : Cursor} {input : Buffer} (hin : here.IsIn input)
    {b : UInt8} {rest : Bytes} (hrest : here.rest = b :: rest) {start : Nat}
    (hstart : start ≤ here.position) :
    (⟨start, here.position + 1⟩ : Span).slice input =
      (⟨start, here.position⟩ : Span).slice input ++ [b] :=
  hin.slice_append (show here.rest = [b] ++ rest from hrest) hstart

/-- The bytes behind a place and those ahead of it are all bytes of the input. -/
theorem Cursor.IsIn.position_add_length {here : Cursor} {input : Buffer} (hin : here.IsIn input) :
    here.position + here.rest.length = input.size := by
  obtain ⟨hposition, hrest⟩ := hin
  rw [hrest, List.length_drop, Array.length_toList]
  omega

theorem Cursor.IsIn.toEnd {here : Cursor} {input : Buffer} (hin : here.IsIn input) :
    here.toEnd.IsIn input := by
  have hend := hin.position_add_length
  constructor
  · exact Nat.le_of_eq hend
  · rw [Cursor.toEnd, hend]
    simp

theorem Span.slice_self (input : Buffer) (offset : Nat) :
    (⟨offset, offset⟩ : Span).slice input = [] := by
  simp [slice]

theorem Span.length_slice_le (span : Span) (input : Buffer) :
    (span.slice input).length ≤ span.length := by
  unfold slice
  split
  · simp only [Array.length_toList, Array.size_extract, length]
    omega
  · exact Nat.zero_le _

/-! ## Entities side by side -/

namespace Attribute

def Ordered (start : Nat) : List Attribute → Nat → Prop
  | [], stop => start ≤ stop
  | pair :: rest, stop =>
      start ≤ pair.name.start ∧ pair.name.start ≤ pair.name.stop ∧
        pair.name.stop ≤ pair.value.start ∧ pair.value.start ≤ pair.value.stop ∧
        Ordered pair.value.stop rest stop

theorem Ordered.mono {start stop later : Nat} {attributes : List Attribute}
    (hordered : Ordered start attributes stop) (hlater : stop ≤ later) :
    Ordered start attributes later := by
  induction attributes generalizing start with
  | nil => exact Nat.le_trans hordered hlater
  | cons pair rest ih =>
      obtain ⟨hstart, hname, hbetween, hvalue, hrest⟩ := hordered
      exact ⟨hstart, hname, hbetween, hvalue, ih hrest⟩

theorem Ordered.concat {start : Nat} {attributes : List Attribute} {added : Attribute}
    (hordered : Ordered start attributes added.name.start)
    (hname : added.name.start ≤ added.name.stop) (hbetween : added.name.stop ≤ added.value.start)
    (hvalue : added.value.start ≤ added.value.stop) :
    Ordered start (attributes ++ [added]) added.value.stop := by
  induction attributes generalizing start with
  | nil => exact ⟨hordered, hname, hbetween, hvalue, Nat.le_refl _⟩
  | cons pair rest ih =>
      obtain ⟨hstart, hfirst, hmiddle, hlast, hrest⟩ := hordered
      exact ⟨hstart, hfirst, hmiddle, hlast, ih hrest⟩

theorem Ordered.le {start stop : Nat} {attributes : List Attribute}
    (hordered : Ordered start attributes stop) : start ≤ stop := by
  induction attributes generalizing start with
  | nil => exact hordered
  | cons pair rest ih =>
      obtain ⟨hstart, hname, hbetween, hvalue, hrest⟩ := hordered
      have := ih hrest
      omega

theorem Ordered.sum_le {start stop : Nat} {attributes : List Attribute}
    (hordered : Ordered start attributes stop) (input : Buffer) :
    start + (attributes.map fun pair =>
      (pair.name.slice input).length + (pair.value.slice input).length).sum ≤ stop := by
  induction attributes generalizing start with
  | nil => exact hordered
  | cons pair rest ih =>
      obtain ⟨hstart, hname, hbetween, hvalue, hrest⟩ := hordered
      have hnameLength := pair.name.length_slice_le input
      have hvalueLength := pair.value.length_slice_le input
      have hothers := ih hrest
      simp only [List.map_cons, List.sum_cons, Span.length] at *
      omega

end Attribute

namespace Entity

/-- The spans of entities lie side by side between two offsets. -/
def Tiles (start : Nat) : List Entity → Nat → Prop
  | [], stop => start = stop
  | entity :: rest, stop =>
      entity.span.start = start ∧ start ≤ entity.span.stop ∧ Tiles entity.span.stop rest stop

theorem Tiles.append {start middle stop : Nat} {left right : List Entity}
    (hleft : Tiles start left middle) (hright : Tiles middle right stop) :
    Tiles start (left ++ right) stop := by
  induction left generalizing start with
  | nil =>
      cases hleft
      exact hright
  | cons entity rest ih =>
      obtain ⟨hstart, hle, hrest⟩ := hleft
      exact ⟨hstart, hle, ih hrest⟩

theorem tiles_textEntity {start stop : Nat} (hle : start ≤ stop) :
    Tiles start (ScanState.textEntity start stop) stop := by
  unfold ScanState.textEntity
  split
  · exact ⟨rfl, hle, rfl⟩
  · show start = stop
    omega

/-- A tag reaches from its `<` to its end, and the close that is supplied behind it adds nothing. -/
theorem tiles_tagEntities {tag : Tag} {ending : TagEnd} {stop : Nat} (hle : tag.head.start ≤ stop) :
    Tiles tag.head.start (tag.entities ending stop) stop := by
  unfold Tag.entities
  dsimp only
  split
  · exact ⟨rfl, hle, rfl⟩
  · split
    · exact ⟨rfl, hle, rfl⟩
    · exact ⟨rfl, hle, rfl, Nat.le_refl _, rfl⟩

def Shaped (maxAttributes : Nat) (input : Buffer) (entity : Entity) : Prop :=
  match entity.kind with
  | .opened name attributes _ =>
      (name.slice input).IsTagName ∧
        (∀ pair ∈ attributes, (pair.name.slice input).IsAttributeName) ∧
        attributes.length ≤ maxAttributes ∧ entity.span.start ≤ name.start ∧
        name.start ≤ name.stop ∧ Attribute.Ordered name.stop attributes entity.span.stop
  | .closed _ _ => True
  | .text => Byte.less ∉ entity.span.slice input
  | .enclosed kind content =>
      ¬ kind.ending <:+: content.slice input ∧ entity.span.start ≤ content.start ∧
        content.stop ≤ entity.span.stop

end Entity

/-! ## The invariant -/

/-- A tag begins with `<`, and an opening tag is not mistaken for anything else. -/
structure TagHead.Begins (input : Buffer) (head : TagHead) : Prop where
  less : (input.toList.drop head.start).head? = some Byte.less
  slash : head.closing = false → input.toList[head.start + 1]? ≠ some Byte.slash
  opening : head.closing = false →
    ∀ kind : Enclosure, ¬ kind.opening <+: input.toList.drop head.start

structure Tag.Formed (maxAttributes : Nat) (input : Buffer) (tag : Tag) (upTo : Nat) : Prop where
  begins : tag.head.Begins input
  name_start : tag.name.start = tag.head.nameStart
  name_lt : tag.head.nameStart < tag.name.stop
  bytes : ∀ b ∈ tag.name.slice input, Byte.isNameByte b = true
  ordered : Attribute.Ordered tag.name.stop tag.attributes.toList upTo
  names : ∀ pair ∈ tag.attributes.toList, (pair.name.slice input).IsAttributeName
  room : tag.attributes.size ≤ maxAttributes

structure Tag.Naming (maxAttributes : Nat) (input : Buffer) (tag : Tag) (name : Span)
    (upTo : Nat) : Prop where
  formed : tag.Formed maxAttributes input name.start
  name_le : name.start ≤ name.stop
  stop_le : name.stop ≤ upTo
  isAttributeName : (name.slice input).IsAttributeName

/-- What has been read of the entity in progress. -/
def Mode.Valid (maxAttributes : Nat) (input : Buffer) (position : Nat) : Mode → Prop
  | .text start => start ≤ position ∧ Byte.less ∉ (⟨start, position⟩ : Span).slice input
  | .enclosed _ start => start ≤ position
  | .tagName head =>
      head.Begins input ∧ head.nameStart ≤ position ∧
        ∀ b ∈ (⟨head.nameStart, position⟩ : Span).slice input, Byte.isNameByte b = true
  | .tag current => current.Formed maxAttributes input position
  | .attributeName current start => current.Naming maxAttributes input ⟨start, position⟩ position
  | .beforeEquals current name => current.Naming maxAttributes input name position
  | .beforeValue current name => current.Naming maxAttributes input name position
  | .value current name _ start => current.Naming maxAttributes input name start ∧ start ≤ position
  | .stopped => True

/-- The offset at which the entity in progress begins. -/
def Mode.mark? : Mode → Option Nat
  | .text start => some start
  | .enclosed _ start => some start
  | .tagName head => some head.start
  | .tag current => some current.head.start
  | .attributeName current _ => some current.head.start
  | .beforeEquals current _ => some current.head.start
  | .beforeValue current _ => some current.head.start
  | .value current _ _ _ => some current.head.start
  | .stopped => none

def Mode.tag? : Mode → Option Tag
  | .tag current => some current
  | .attributeName current _ => some current
  | .beforeEquals current _ => some current
  | .beforeValue current _ => some current
  | .value current _ _ _ => some current
  | _ => none

structure ScanState.Valid (maxAttributes : Nat) (input : Buffer) (state : ScanState) : Prop where
  isIn : state.here.IsIn input
  mode : state.mode.Valid maxAttributes input state.here.position

structure Move.Keeps (maxAttributes : Nat) (input : Buffer) (mode : Mode) (move : Move) : Prop where
  valid : move.state.Valid maxAttributes input
  shaped : ∀ entity ∈ move.emitted, entity.Shaped maxAttributes input
  tiles : (move.state.mode = .stopped ∧ move.emitted = []) ∨ ∃ start stop,
    mode.mark? = some start ∧ Entity.Tiles start move.emitted stop ∧
      move.state.mode.mark? = some stop

section Steps

variable {maxAttributes : Nat} {input : Buffer} {tag : Tag} {name : Span} {here : Cursor}

theorem Tag.Formed.mono {upTo later : Nat} (hformed : tag.Formed maxAttributes input upTo)
    (hlater : upTo ≤ later) : tag.Formed maxAttributes input later :=
  { hformed with ordered := hformed.ordered.mono hlater }

theorem Tag.Naming.mono {upTo later : Nat} (hnaming : tag.Naming maxAttributes input name upTo)
    (hlater : upTo ≤ later) : tag.Naming maxAttributes input name later :=
  { hnaming with stop_le := Nat.le_trans hnaming.stop_le hlater }

theorem Tag.Naming.formed_behind {upTo : Nat} (hnaming : tag.Naming maxAttributes input name upTo) :
    tag.Formed maxAttributes input upTo :=
  hnaming.formed.mono (Nat.le_trans hnaming.name_le hnaming.stop_le)

/-- The tag in progress is formed up to the cursor. -/
theorem Mode.Valid.formed {mode : Mode} {position : Nat}
    (hvalid : mode.Valid maxAttributes input position) (htag : mode.tag? = some tag) :
    tag.Formed maxAttributes input position := by
  cases mode with
  | tag _ =>
      cases htag
      exact hvalid
  | attributeName _ _ =>
      cases htag
      exact Tag.Naming.formed_behind hvalid
  | beforeEquals _ _ =>
      cases htag
      exact Tag.Naming.formed_behind hvalid
  | beforeValue _ _ =>
      cases htag
      exact Tag.Naming.formed_behind hvalid
  | value _ _ _ _ =>
      cases htag
      exact (Tag.Naming.formed_behind hvalid.1).mono hvalid.2
  | text _ => cases htag
  | enclosed _ _ => cases htag
  | tagName _ => cases htag
  | stopped => cases htag

theorem TagHead.start_lt_nameStart (head : TagHead) : head.start < head.nameStart := by
  unfold nameStart
  split <;> omega

theorem Tag.Formed.start_lt {upTo : Nat} (hformed : tag.Formed maxAttributes input upTo) :
    tag.head.start < upTo := by
  have hhead := tag.head.start_lt_nameStart
  have hname := hformed.name_lt
  have hordered := hformed.ordered.le
  omega

/-- The entity in progress begins at or before the cursor. -/
theorem Mode.Valid.mark_le {mode : Mode} {position start : Nat}
    (hvalid : mode.Valid maxAttributes input position) (hmark : mode.mark? = some start) :
    start ≤ position := by
  cases mode with
  | text _ =>
      cases hmark
      exact hvalid.1
  | enclosed _ _ =>
      cases hmark
      exact hvalid
  | tagName head =>
      cases hmark
      exact Nat.le_trans (Nat.le_of_lt head.start_lt_nameStart) hvalid.2.1
  | stopped => cases hmark
  -- In all other modes there is a tag in progress.
  | _ =>
      cases hmark
      exact Nat.le_of_lt (Mode.Valid.formed hvalid rfl).start_lt

theorem Move.Keeps.silent {mode other : Mode} {start : Nat} (hin : here.IsIn input)
    (hother : other.Valid maxAttributes input here.position) (hmode : mode.mark? = some start)
    (hmark : other.mark? = some start) :
    (Move.silent other here).Keeps maxAttributes input mode := by
  refine ⟨⟨hin, hother⟩, ?_, .inr ⟨start, start, hmode, rfl, hmark⟩⟩
  intro entity hentity
  cases hentity

theorem Move.Keeps.stop (hin : here.IsIn input) (mode : Mode) :
    (Move.stop here).Keeps maxAttributes input mode := by
  refine ⟨⟨hin.toEnd, trivial⟩, ?_, .inl ⟨rfl, rfl⟩⟩
  intro entity hentity
  cases hentity

/-- The name of an opening tag is not mistaken for anything else. -/
theorem Tag.Formed.isTagName {upTo : Nat} (hformed : tag.Formed maxAttributes input upTo)
    (hsize : upTo ≤ input.size) (hopening : tag.head.closing = false) :
    (tag.name.slice input).IsTagName := by
  have hstart : tag.name.start = tag.head.start + 1 := by
    rw [hformed.name_start, TagHead.nameStart, hopening]
    rfl
  have hlt : tag.name.start < tag.name.stop := hformed.name_start ▸ hformed.name_lt
  have hstop : tag.name.stop ≤ input.size := Nat.le_trans hformed.ordered.le hsize
  have hslice : tag.name.slice input =
      (input.toList.drop (tag.head.start + 1)).take tag.name.length := by
    rw [Span.slice_eq_take_drop (Nat.le_of_lt hlt) hstop, hstart]
  have hdrop : input.toList.drop tag.head.start =
      Byte.less :: input.toList.drop (tag.head.start + 1) := by
    have hless := hformed.begins.less
    rw [List.head?_drop] at hless
    obtain ⟨hbound, hget⟩ := List.getElem?_eq_some_iff.mp hless
    rw [List.drop_eq_getElem_cons hbound, hget]
  refine ⟨?_, hformed.bytes, ?_, ?_⟩
  · intro hnil
    have hlength := congrArg List.length (hnil.symm.trans hslice)
    simp only [List.length_nil, List.length_take, List.length_drop, Array.length_toList,
      Span.length] at hlength
    omega
  · intro hhead
    refine hformed.begins.slash hopening ?_
    rw [hslice, List.head?_take] at hhead
    rw [← List.head?_drop]
    split at hhead
    · cases hhead
    · exact hhead
  · intro kind hbegins
    refine hformed.begins.opening hopening kind (hbegins.trans ?_)
    rw [hdrop, hslice]
    exact List.cons_prefix_cons.mpr ⟨rfl, List.take_prefix _ _⟩

/-- A complete tag has its shape. -/
theorem Tag.Formed.keeps_finishTag {mode : Mode} {ending : TagEnd}
    (hformed : tag.Formed maxAttributes input here.position) (hin : here.IsIn input)
    (hending : TagEnd.of? here.rest = some ending) (hmark : mode.mark? = some tag.head.start) :
    (Move.finishTag tag ending here).Keeps maxAttributes input mode := by
  have hwidth := TagEnd.width_le_of_of? hending
  have hposition : (here.advance ending.width).position = here.position + ending.width := by
    rw [Cursor.position_advance, Nat.min_eq_left hwidth]
  have hstart := hformed.start_lt
  have hsize : here.position + ending.width ≤ input.size := hposition ▸ (hin.advance _).1
  have hformed' := hformed.mono (Nat.le_add_right here.position ending.width)
  constructor
  · refine ⟨hin.advance _, ?_⟩
    simp only [Move.finishTag, Mode.Valid]
    rw [hposition, Span.slice_self]
    exact ⟨Nat.le_refl _, List.not_mem_nil⟩
  · have hopened : tag.head.closing = false → ∀ selfClosing, Entity.Shaped maxAttributes input
        ⟨.opened tag.name tag.attributes.toList selfClosing,
          ⟨tag.head.start, here.position + ending.width⟩⟩ := by
      intro hopening selfClosing
      refine ⟨hformed'.isTagName hsize hopening, hformed.names, ?_, ?_, ?_, hformed'.ordered⟩
      · rw [Array.length_toList]
        exact hformed.room
      · rw [hformed.name_start]
        exact Nat.le_of_lt tag.head.start_lt_nameStart
      · rw [hformed.name_start]
        exact Nat.le_of_lt hformed.name_lt
    intro entity hentity
    simp only [Move.finishTag, Tag.entities] at hentity
    split at hentity
    · cases List.mem_singleton.mp hentity
      trivial
    · rename_i hopening
      have hclosing : tag.head.closing = false := by simpa using hopening
      split at hentity
      · cases List.mem_singleton.mp hentity
        exact hopened hclosing false
      · rcases List.mem_cons.mp hentity with rfl | hsecond
        · exact hopened hclosing true
        · cases List.mem_singleton.mp hsecond
          trivial
  · have hle : tag.head.start ≤ here.position + ending.width := by omega
    exact .inr ⟨tag.head.start, here.position + ending.width, hmark, Entity.tiles_tagEntities hle,
      rfl⟩

/-- A tag that received one more attribute is of its shape again. -/
theorem Tag.Naming.formed_enlarge {value : Span}
    (hnaming : tag.Naming maxAttributes input name value.start) (hvalue : value.start ≤ value.stop)
    (hroom : tag.attributes.size < maxAttributes) :
    (tag.enlarge ⟨name, value⟩).Formed maxAttributes input value.stop := by
  have hformed := hnaming.formed
  refine ⟨hformed.begins, hformed.name_start, hformed.name_lt, hformed.bytes, ?_, ?_, ?_⟩
  · rw [Tag.toList_enlarge]
    exact hformed.ordered.concat hnaming.name_le hnaming.stop_le hvalue
  · intro pair hpair
    rw [Tag.toList_enlarge] at hpair
    rcases List.mem_append.mp hpair with hold | hnew
    · exact hformed.names pair hold
    · cases List.mem_singleton.mp hnew
      exact hnaming.isAttributeName
  · rw [Tag.size_enlarge]
    exact hroom

theorem Tag.Naming.keeps_addAttribute {mode : Mode} {value : Span} {move : Move}
    (hnaming : tag.Naming maxAttributes input name value.start) (hvalue : value.start ≤ value.stop)
    (hstop : value.stop ≤ here.position) (hin : here.IsIn input)
    (hmark : mode.mark? = some tag.head.start)
    (hmove : (tag.addAttribute maxAttributes ⟨name, value⟩).map
      (fun enlarged => Move.silent (.tag enlarged) here) = .ok move) :
    move.Keeps maxAttributes input mode := by
  obtain ⟨hroom, rfl⟩ := Tag.eq_enlarge_of_map_addAttribute hmove
  exact .silent hin ((hnaming.formed_enlarge hvalue hroom).mono hstop) hmark rfl

/-! ## One step in each mode -/

theorem Cursor.IsIn.position_advance_le (hin : here.IsIn input) (count : Nat) :
    here.position ≤ (here.advance count).position ∧ (here.advance count).position ≤ input.size := by
  constructor
  · rw [Cursor.position_advance]
    exact Nat.le_add_right _ _
  · exact (hin.advance count).1

/-- Markup that begins at a `<` is in progress from there on. -/
theorem openMarkup_valid {after : Bytes} (hin : here.IsIn input)
    (hrest : here.rest = Byte.less :: after) :
    ScanState.Valid maxAttributes input
        ⟨(ScanState.openMarkup here).1, here.advance (ScanState.openMarkup here).2⟩ ∧
      (ScanState.openMarkup here).1.mark? = some here.position := by
  have hdrop : input.toList.drop here.position = Byte.less :: after := hin.2.symm.trans hrest
  have hless : (input.toList.drop here.position).head? = some Byte.less := by rw [hdrop]; rfl
  have hsecond : here.peekAt? 1 = input.toList[here.position + 1]? := by
    rw [Cursor.peekAt?, hin.2, List.getElem?_drop]
  by_cases hcomment : Enclosure.comment.opening.isPrefixOf here.rest = true
  · rw [ScanState.openMarkup, if_pos hcomment]
    exact ⟨⟨hin.advance _, (hin.position_advance_le _).1⟩, rfl⟩
  by_cases hcdata : Enclosure.cdata.opening.isPrefixOf here.rest = true
  · rw [ScanState.openMarkup, if_neg hcomment, if_pos hcdata]
    exact ⟨⟨hin.advance _, (hin.position_advance_le _).1⟩, rfl⟩
  by_cases hinstruction : Enclosure.instruction.opening.isPrefixOf here.rest = true
  · rw [ScanState.openMarkup, if_neg hcomment, if_neg hcdata, if_pos hinstruction]
    exact ⟨⟨hin.advance _, (hin.position_advance_le _).1⟩, rfl⟩
  have hopening : ∀ kind : Enclosure, ¬ kind.opening <+: input.toList.drop here.position := by
    intro kind hbegins
    rw [← hin.2] at hbegins
    have htrue := List.isPrefixOf_iff_prefix.mpr hbegins
    cases kind with
    | comment => exact hcomment htrue
    | instruction => exact hinstruction htrue
    | cdata => exact hcdata htrue
  rw [ScanState.openMarkup, if_neg hcomment, if_neg hcdata, if_neg hinstruction]
  split
  · rename_i hslash
    have hlength : 2 ≤ here.rest.length := (List.getElem?_eq_some_iff.mp hslash).1
    have hposition : (here.advance 2).position = here.position + 2 := by
      rw [Cursor.position_advance, Nat.min_eq_left hlength]
    refine ⟨⟨hin.advance _, ⟨hless, Bool.noConfusion, Bool.noConfusion⟩, ?_, ?_⟩, rfl⟩
    · exact Nat.le_of_eq hposition.symm
    · rw [hposition]
      intro b hb
      rw [TagHead.nameStart, if_pos rfl, Span.slice_self] at hb
      cases hb
  · rename_i hslash
    have hposition : (here.advance 1).position = here.position + 1 := by
      rw [Cursor.position_advance, hrest, Nat.min_eq_left (by simp)]
    refine ⟨⟨hin.advance _, ⟨hless, fun _ => hsecond ▸ hslash, fun _ => hopening⟩, ?_, ?_⟩, rfl⟩
    · exact Nat.le_of_eq hposition.symm
    · rw [hposition]
      intro b hb
      rw [TagHead.nameStart, if_neg Bool.false_ne_true, Span.slice_self] at hb
      cases hb

theorem textEntity_shaped {start stop : Nat} (hle : start ≤ stop)
    (hless : Byte.less ∉ (⟨start, stop⟩ : Span).slice input) :
    (∀ entity ∈ ScanState.textEntity start stop, entity.Shaped maxAttributes input) ∧
      Entity.Tiles start (ScanState.textEntity start stop) stop := by
  refine ⟨?_, Entity.tiles_textEntity hle⟩
  intro entity hentity
  unfold ScanState.textEntity at hentity
  split at hentity
  · cases List.mem_singleton.mp hentity
    exact hless
  · cases hentity

theorem keeps_stepText {start : Nat} (hin : here.IsIn input)
    (hvalid : (Mode.text start).Valid maxAttributes input here.position) :
    (ScanState.stepText start here).Keeps maxAttributes input (.text start) := by
  obtain ⟨hstart, hpending⟩ := hvalid
  unfold ScanState.stepText
  split
  · rename_i hnone
    refine .silent hin.toEnd ?_ rfl rfl
    have hahead : Byte.less ∉ here.rest := Bytes.notMem_of_search?_eq_none hnone
    have hslice := hin.slice_append (List.append_nil here.rest).symm hstart
    refine ⟨Nat.le_trans hstart (Nat.le_add_right _ _), ?_⟩
    simp only [Cursor.toEnd]
    rw [hslice, List.mem_append]
    exact not_or.mpr ⟨hpending, hahead⟩
  · rename_i less hfound
    obtain ⟨before, after, hrest, rfl, hbefore⟩ :=
      Bytes.exists_of_search?_eq_some_of_ne_nil (List.cons_ne_nil _ _) hfound
    have hskipped : Byte.less ∉ before := by
      intro hmem
      obtain ⟨left, right, hsplit⟩ := List.append_of_mem hmem
      exact hbefore ⟨left, right, by rw [hsplit, List.append_assoc]; rfl⟩
    have hadvance : here.advance (here.position + before.length - here.position) =
        ⟨here.position + before.length, Byte.less :: after⟩ := by
      obtain ⟨position, ahead⟩ := here
      cases hrest
      rw [Nat.add_sub_cancel_left]
      exact Cursor.advance_append before _ position 0
    have hatLess := hin.advance (here.position + before.length - here.position)
    dsimp only
    rw [hadvance] at hatLess ⊢
    obtain ⟨hopened, hmark⟩ := openMarkup_valid hatLess rfl
    have hslice := hin.slice_append hrest hstart
    have htext : Byte.less ∉ (⟨start, here.position + before.length⟩ : Span).slice input := by
      rw [hslice, List.mem_append]
      exact not_or.mpr ⟨hpending, hskipped⟩
    obtain ⟨hshaped, htiles⟩ :=
      textEntity_shaped (Nat.le_trans hstart (Nat.le_add_right _ _)) htext
    exact ⟨hopened, hshaped, .inr ⟨start, here.position + before.length, rfl, htiles, hmark⟩⟩

theorem keeps_stepEnclosed {kind : Enclosure} {start : Nat} (hin : here.IsIn input)
    (hvalid : (Mode.enclosed kind start).Valid maxAttributes input here.position) :
    (ScanState.stepEnclosed kind start here).Keeps maxAttributes input (.enclosed kind start) := by
  unfold ScanState.stepEnclosed
  split
  · exact .stop hin _
  · rename_i found hfound
    obtain ⟨before, after, hrest, rfl, hbefore⟩ := Bytes.exists_of_search?_eq_some_of_ne_nil
      (by cases kind <;> exact List.cons_ne_nil _ _) hfound
    have hslice := hin.slice_append hrest (Nat.le_refl _)
    rw [Span.slice_self, List.nil_append] at hslice
    have hposition : (here.advance (here.position + before.length + kind.ending.length -
        here.position)).position = here.position + before.length + kind.ending.length := by
      have hlength := congrArg List.length hrest
      simp only [List.length_append] at hlength
      rw [Cursor.position_advance]
      omega
    have hle : start ≤ here.position := hvalid
    refine ⟨⟨hin.advance _, ?_⟩, ?_, .inr ⟨start, _, rfl, ⟨rfl, ?_, rfl⟩, rfl⟩⟩
    · dsimp only [Mode.Valid]
      rw [hposition, Span.slice_self]
      exact ⟨Nat.le_refl _, List.not_mem_nil⟩
    · intro entity hentity
      cases List.mem_singleton.mp hentity
      refine ⟨?_, hle, Nat.le_add_right _ _⟩
      rw [hslice]
      exact hbefore
    · dsimp only
      omega

theorem isNameByte_of_goesOn {b : UInt8} {rest : Bytes} (hspace : ¬ Byte.isSpace b = true)
    (hend : TagEnd.of? (b :: rest) = none) : Byte.isNameByte b = true := by
  have hgreater : b ≠ Byte.greater := by
    rintro rfl
    cases hend
  simp [Byte.isNameByte, hspace, hgreater]

theorem formed_of_tagName {head : TagHead}
    (hvalid : (Mode.tagName head).Valid maxAttributes input here.position)
    (hname : ¬ (⟨head.nameStart, here.position⟩ : Span).isEmpty = true) :
    (⟨head, ⟨head.nameStart, here.position⟩, #[]⟩ : Tag).Formed maxAttributes input
      here.position := by
  obtain ⟨hbegins, -, hbytes⟩ := hvalid
  have hlt : head.nameStart < here.position := by
    simpa [Span.isEmpty] using hname
  have hnames : ∀ pair ∈ ([] : List Attribute), (pair.name.slice input).IsAttributeName :=
    fun pair hpair => absurd hpair List.not_mem_nil
  exact ⟨hbegins, rfl, hlt, hbytes, Nat.le_refl _, hnames, Nat.zero_le _⟩

theorem keeps_stepTagName {head : TagHead} {b : UInt8} {rest : Bytes} (hin : here.IsIn input)
    (hrest : here.rest = b :: rest)
    (hvalid : (Mode.tagName head).Valid maxAttributes input here.position) :
    (ScanState.stepTagName head here b ⟨here.position + 1, rest⟩).Keeps maxAttributes input
      (.tagName head) := by
  have hformed := formed_of_tagName hvalid
  obtain ⟨hbegins, hle, hbytes⟩ := hvalid
  unfold ScanState.stepTagName
  dsimp only
  split
  · split
    · exact .stop hin _
    · rename_i hname
      exact .silent (hin.next hrest) ((hformed hname).mono (Nat.le_succ _)) rfl rfl
  · rename_i hspace
    split
    · rename_i ending hending
      split
      · exact .stop hin _
      · rename_i hname
        exact (hformed hname).keeps_finishTag hin hending rfl
    · rename_i hnone
      refine .silent (hin.next hrest) ⟨hbegins, Nat.le_succ_of_le hle, ?_⟩ rfl rfl
      intro c hc
      rw [hin.slice_concat hrest hle] at hc
      rcases List.mem_append.mp hc with hold | hnew
      · exact hbytes c hold
      · rw [List.mem_singleton.mp hnew]
        exact isNameByte_of_goesOn hspace (hrest ▸ hnone)

theorem keeps_stepTag {b : UInt8} {rest : Bytes} (hin : here.IsIn input)
    (hrest : here.rest = b :: rest)
    (hvalid : (Mode.tag tag).Valid maxAttributes input here.position) :
    (ScanState.stepTag tag here b ⟨here.position + 1, rest⟩).Keeps maxAttributes input
      (.tag tag) := by
  have hformed : tag.Formed maxAttributes input here.position := hvalid
  unfold ScanState.stepTag
  split
  · rename_i ending hending
    exact hformed.keeps_finishTag hin hending rfl
  · rename_i hnone
    split
    · exact .silent (hin.next hrest) (hformed.mono (Nat.le_succ _)) rfl rfl
    · rename_i hskipped
      simp only [Bool.or_eq_true, not_or, beq_iff_eq] at hskipped
      obtain ⟨⟨hspace, hslash⟩, -⟩ := hskipped
      have hslice : (⟨here.position, here.position + 1⟩ : Span).slice input = [b] := by
        rw [hin.slice_concat hrest (Nat.le_refl _), Span.slice_self, List.nil_append]
      refine .silent (hin.next hrest) ⟨hformed, Nat.le_succ _, Nat.le_refl _, ?_⟩ rfl rfl
      rw [hslice]
      refine ⟨List.cons_ne_nil _ _, ?_, ?_, List.not_mem_nil⟩
      · intro c hc
        rw [List.mem_singleton.mp hc]
        exact isNameByte_of_goesOn hspace (hrest ▸ hnone)
      · intro hhead
        exact hslash (Option.some.inj hhead)

theorem isAttributeName_concat {bytes : Bytes} (hbytes : bytes.IsAttributeName) {b : UInt8}
    (hb : Byte.isNameByte b = true) (hequals : b ≠ Byte.equals) :
    Bytes.IsAttributeName (bytes ++ [b]) := by
  obtain ⟨first, others, rfl⟩ := List.exists_cons_of_ne_nil hbytes.ne_nil
  refine ⟨List.cons_ne_nil _ _, ?_, hbytes.head?, ?_⟩
  · intro c hc
    rcases List.mem_append.mp hc with hold | hnew
    · exact hbytes.bytes c hold
    · rw [List.mem_singleton.mp hnew]
      exact hb
  · intro hmem
    rcases List.mem_append.mp hmem with hold | hnew
    · exact hbytes.equals hold
    · exact hequals (List.mem_singleton.mp hnew).symm

theorem keeps_stepAttributeName {start : Nat} {b : UInt8} {rest : Bytes} {move : Move}
    (hin : here.IsIn input) (hrest : here.rest = b :: rest)
    (hvalid : (Mode.attributeName tag start).Valid maxAttributes input here.position)
    (hstep : ScanState.stepAttributeName maxAttributes tag start here b
      ⟨here.position + 1, rest⟩ = .ok move) :
    move.Keeps maxAttributes input (.attributeName tag start) := by
  have hnaming : tag.Naming maxAttributes input ⟨start, here.position⟩ here.position := hvalid
  unfold ScanState.stepAttributeName at hstep
  dsimp only at hstep
  split at hstep
  · cases hstep
    exact .silent (hin.next hrest) (hnaming.mono (Nat.le_succ _)) rfl rfl
  · rename_i hequals
    split at hstep
    · cases hstep
      exact .silent (hin.next hrest) (hnaming.mono (Nat.le_succ _)) rfl rfl
    · rename_i hspace
      split at hstep
      · have hend : tag.Naming maxAttributes input ⟨start, here.position⟩
            (Span.empty here.position).start := hnaming
        exact hend.keeps_addAttribute (Nat.le_refl _) (Nat.le_refl _) hin rfl hstep
      · rename_i hgoesOn
        cases hstep
        have hnone : TagEnd.of? (b :: rest) = none := by
          rw [← hrest]
          simpa using hgoesOn
        refine .silent (hin.next hrest) ⟨hnaming.formed, Nat.le_succ_of_le hnaming.name_le,
          Nat.le_refl _, ?_⟩ rfl rfl
        rw [hin.slice_concat hrest hnaming.name_le]
        exact isAttributeName_concat hnaming.isAttributeName (isNameByte_of_goesOn hspace hnone)
          hequals

theorem keeps_stepBeforeEquals {b : UInt8} {rest : Bytes} {move : Move} (hin : here.IsIn input)
    (hrest : here.rest = b :: rest)
    (hvalid : (Mode.beforeEquals tag name).Valid maxAttributes input here.position)
    (hstep : ScanState.stepBeforeEquals maxAttributes tag name here b
      ⟨here.position + 1, rest⟩ = .ok move) :
    move.Keeps maxAttributes input (.beforeEquals tag name) := by
  have hnaming : tag.Naming maxAttributes input name here.position := hvalid
  unfold ScanState.stepBeforeEquals at hstep
  split at hstep
  · cases hstep
    exact .silent (hin.next hrest) (hnaming.mono (Nat.le_succ _)) rfl rfl
  · split at hstep
    · cases hstep
      exact .silent (hin.next hrest) (hnaming.mono (Nat.le_succ _)) rfl rfl
    · have hend : tag.Naming maxAttributes input name (Span.empty name.stop).start :=
        { hnaming with stop_le := Nat.le_refl _ }
      exact hend.keeps_addAttribute (Nat.le_refl _) hnaming.stop_le hin rfl hstep

theorem keeps_stepBeforeValue {b : UInt8} {rest : Bytes} {move : Move} (hin : here.IsIn input)
    (hrest : here.rest = b :: rest)
    (hvalid : (Mode.beforeValue tag name).Valid maxAttributes input here.position)
    (hstep : ScanState.stepBeforeValue maxAttributes tag name here b
      ⟨here.position + 1, rest⟩ = .ok move) :
    move.Keeps maxAttributes input (.beforeValue tag name) := by
  have hnaming : tag.Naming maxAttributes input name here.position := hvalid
  have hlater := hnaming.mono (Nat.le_succ here.position)
  unfold ScanState.stepBeforeValue at hstep
  split at hstep
  · cases hstep
    exact .silent (hin.next hrest) hlater rfl rfl
  · split at hstep
    · cases hstep
      exact .silent (hin.next hrest) ⟨hlater, Nat.le_refl _⟩ rfl rfl
    · split at hstep
      · have hend : tag.Naming maxAttributes input name (Span.empty here.position).start := hnaming
        exact hend.keeps_addAttribute (Nat.le_refl _) (Nat.le_refl _) hin rfl hstep
      · cases hstep
        exact .silent (hin.next hrest) ⟨hnaming, Nat.le_succ _⟩ rfl rfl

theorem keeps_stepQuoted {quote : UInt8} {start : Nat} {move : Move} (hin : here.IsIn input)
    (hvalid : (Mode.value tag name (some quote) start).Valid maxAttributes input here.position)
    (hstep : ScanState.stepQuoted maxAttributes tag name quote start here = .ok move) :
    move.Keeps maxAttributes input (.value tag name (some quote) start) := by
  obtain ⟨hnaming, hle⟩ := hvalid
  unfold ScanState.stepQuoted at hstep
  split at hstep
  · cases hstep
    exact .stop hin _
  · rename_i found hfound
    have hfirst : here.position ≤ found := Bytes.le_of_search? hfound
    have hlast : found + 1 ≤ here.position + here.rest.length :=
      Bytes.search?_add_length_le hfound
    have hvalue : tag.Naming maxAttributes input name (⟨start, found⟩ : Span).start := hnaming
    refine hvalue.keeps_addAttribute (Nat.le_trans hle hfirst) ?_ (hin.advance _) rfl hstep
    rw [Cursor.position_advance]
    dsimp only
    omega

theorem keeps_stepBare {start : Nat} {b : UInt8} {rest : Bytes} {move : Move}
    (hin : here.IsIn input) (hrest : here.rest = b :: rest)
    (hvalid : (Mode.value tag name none start).Valid maxAttributes input here.position)
    (hstep : ScanState.stepBare maxAttributes tag name start here b
      ⟨here.position + 1, rest⟩ = .ok move) :
    move.Keeps maxAttributes input (.value tag name none start) := by
  obtain ⟨hnaming, hle⟩ := hvalid
  have hvalue : tag.Naming maxAttributes input name (⟨start, here.position⟩ : Span).start := hnaming
  unfold ScanState.stepBare at hstep
  dsimp only at hstep
  split at hstep
  · exact hvalue.keeps_addAttribute hle (Nat.le_succ _) (hin.next hrest) rfl hstep
  · split at hstep
    · exact hvalue.keeps_addAttribute hle (Nat.le_refl _) hin rfl hstep
    · cases hstep
      exact .silent (hin.next hrest) ⟨hnaming, Nat.le_succ_of_le hle⟩ rfl rfl

/-- Every step keeps the invariant. -/
theorem keeps_step {state : ScanState} {b : UInt8} {rest : Bytes} {move : Move}
    (hvalid : state.Valid maxAttributes input) (hrest : state.here.rest = b :: rest)
    (hstep : state.step maxAttributes b ⟨state.here.position + 1, rest⟩ = .ok move) :
    move.Keeps maxAttributes input state.mode := by
  obtain ⟨mode, here⟩ := state
  obtain ⟨hin, hmode⟩ := hvalid
  cases mode with
  | text start =>
      cases hstep
      exact keeps_stepText hin hmode
  | enclosed kind start =>
      cases hstep
      exact keeps_stepEnclosed hin hmode
  | tagName head =>
      cases hstep
      exact keeps_stepTagName hin hrest hmode
  | tag tag =>
      cases hstep
      exact keeps_stepTag hin hrest hmode
  | attributeName tag start => exact keeps_stepAttributeName hin hrest hmode hstep
  | beforeEquals tag name => exact keeps_stepBeforeEquals hin hrest hmode hstep
  | beforeValue tag name => exact keeps_stepBeforeValue hin hrest hmode hstep
  | value tag name quote start =>
      cases quote with
      | none => exact keeps_stepBare hin hrest hmode hstep
      | some quote => exact keeps_stepQuoted hin hmode hstep
  | stopped =>
      cases hstep
      exact .stop hin _

end Steps

/-! ## The whole input -/

/-- The entities emitted so far have their shape and lie side by side up to the one in progress. -/
structure ScanState.Sound (maxAttributes : Nat) (input : Buffer) (front : List Entity)
    (state : ScanState) : Prop where
  valid : state.Valid maxAttributes input
  shaped : ∀ entity ∈ front, entity.Shaped maxAttributes input
  tiles : ∃ stop, Entity.Tiles 0 front stop ∧ stop ≤ input.size ∧
    (state.mode = .stopped ∨ state.mode.mark? = some stop)

/-- A step keeps what is known of the entities emitted so far. -/
theorem ScanState.Sound.step {maxAttributes : Nat} {input : Buffer} {front : List Entity}
    {state : ScanState} {b : UInt8} {rest : Bytes} {move : Move}
    (hsound : state.Sound maxAttributes input front) (hrest : state.here.rest = b :: rest)
    (hstep : state.step maxAttributes b ⟨state.here.position + 1, rest⟩ = .ok move) :
    move.state.Sound maxAttributes input (front ++ move.emitted) := by
  have hkeeps := keeps_step hsound.valid hrest hstep
  obtain ⟨stop, htiles, hsize, hmark⟩ := hsound.tiles
  refine ⟨hkeeps.valid, ?_, ?_⟩
  · intro entity hentity
    rcases List.mem_append.mp hentity with hold | hnew
    · exact hsound.shaped entity hold
    · exact hkeeps.shaped entity hnew
  · rcases hkeeps.tiles with ⟨hstopped, hnone⟩ | ⟨start, later, hstart, hmore, hlater⟩
    · rw [hnone, List.append_nil]
      exact ⟨stop, htiles, hsize, .inl hstopped⟩
    · rcases hmark with hstopped | hmark
      · rw [hstopped] at hstart
        cases hstart
      · cases hmark.symm.trans hstart
        refine ⟨later, htiles.append hmore, ?_, .inr hlater⟩
        exact Nat.le_trans (hkeeps.valid.mode.mark_le hlater) hkeeps.valid.isIn.1

/-- At the end of the input a text in progress has its shape, too. -/
theorem ScanState.Sound.finish {maxAttributes : Nat} {input : Buffer} {front : List Entity}
    {last : ScanState} (hsound : last.Sound maxAttributes input front) :
    (∀ entity ∈ front ++ last.finish, entity.Shaped maxAttributes input) ∧
      ∃ stop, Entity.Tiles 0 (front ++ last.finish) stop ∧ stop ≤ input.size := by
  obtain ⟨stop, htiles, hsize, hmark⟩ := hsound.tiles
  have hnone : last.finish = [] →
      (∀ entity ∈ front ++ last.finish, entity.Shaped maxAttributes input) ∧
        ∃ stop, Entity.Tiles 0 (front ++ last.finish) stop ∧ stop ≤ input.size := by
    intro hfinish
    rw [hfinish, List.append_nil]
    exact ⟨hsound.shaped, stop, htiles, hsize⟩
  obtain ⟨mode, here⟩ := last
  match mode with
  | .text start =>
      obtain ⟨hle, hless⟩ := hsound.valid.mode
      obtain ⟨hshaped, htext⟩ := textEntity_shaped hle hless
      have hstart : start = stop := by
        rcases hmark with hstopped | hmark
        · cases hstopped
        · exact Option.some.inj hmark
      subst hstart
      refine ⟨?_, here.position, htiles.append htext, hsound.valid.isIn.1⟩
      intro entity hentity
      rcases List.mem_append.mp hentity with hold | hnew
      · exact hsound.shaped entity hold
      · exact hshaped entity hnew
  | .enclosed _ _ => exact hnone rfl
  | .tagName _ => exact hnone rfl
  | .tag _ => exact hnone rfl
  | .attributeName _ _ => exact hnone rfl
  | .beforeEquals _ _ => exact hnone rfl
  | .beforeValue _ _ => exact hnone rfl
  | .value _ _ _ _ => exact hnone rfl
  | .stopped => exact hnone rfl

/-- The entities of any input have their shape and tile a beginning of the input. -/
theorem scan_shaped (maxAttributes : Nat) (input : Buffer) :
    (∀ entity ∈ (scan maxAttributes input).entities, entity.Shaped maxAttributes input) ∧
      ∃ stop, Entity.Tiles 0 (scan maxAttributes input).entities stop ∧ stop ≤ input.size := by
  have hstart : (ScanState.start input).Sound maxAttributes input (#[] : Array Entity).toList := by
    refine ⟨⟨Cursor.start_isIn input, Nat.le_refl _, ?_⟩, nofun, 0, rfl, Nat.zero_le _, .inr rfl⟩
    show Byte.less ∉ (⟨0, 0⟩ : Span).slice input
    rw [Span.slice_self]
    exact List.not_mem_nil
  obtain ⟨front, last, hsound, hends⟩ :=
    ScanState.run_induction (fun hinvariant hrest hstep => hinvariant.step hrest hstep) #[] hstart
  unfold scan
  generalize (ScanState.start input).run maxAttributes #[] = scanned at hends
  cases hends with
  | finished hrest => exact hsound.finish
  | failed hrest hstep =>
      obtain ⟨stop, htiles, hsize, -⟩ := hsound.tiles
      exact ⟨hsound.shaped, stop, htiles, hsize⟩

/-! ## The bytes of the strings -/

/-- The strings of an entity do not overlap. -/
theorem Entity.Shaped.length_texts_le {maxAttributes : Nat} {input : Buffer} {entity : Entity}
    (hshaped : entity.Shaped maxAttributes input) (whitespace : Whitespace) :
    ((entity.texts input whitespace).map List.length).sum ≤ entity.span.length := by
  obtain ⟨kind, span⟩ := entity
  match kind with
  | .opened name attributes selfClosing =>
      obtain ⟨-, -, -, hstart, hname, hordered⟩ := hshaped
      have hnameLength := name.length_slice_le input
      have hsum := hordered.sum_le input
      rw [Entity.length_texts_opened, List.map_map]
      simp only [Span.length, Function.comp_def] at *
      omega
  | .closed _ _ => exact Nat.zero_le _
  | .text =>
      have hlength := span.length_slice_le input
      simp only [Entity.texts]
      split
      · exact Nat.zero_le _
      · simpa using hlength
  | .enclosed kind content =>
      obtain ⟨-, hstart, hstop⟩ := hshaped
      have hlength := content.length_slice_le input
      simp only [Entity.texts, List.map_cons, List.map_nil, List.sum_cons, List.sum_nil,
        Nat.add_zero, Span.length] at *
      omega

/-- The strings of entities side by side have no more bytes than the entities. -/
theorem Entity.totalLength_le_of_tiles {maxAttributes : Nat} {input : Buffer}
    {entities : List Entity} (hshaped : ∀ entity ∈ entities, entity.Shaped maxAttributes input)
    (whitespace : Whitespace) {start stop : Nat} (htiles : Tiles start entities stop) :
    start + totalLength input whitespace entities ≤ stop := by
  induction entities generalizing start with
  | nil => exact Nat.le_of_eq htiles
  | cons entity rest ih =>
      obtain ⟨hstart, hle, hrest⟩ := htiles
      have hfirst := (hshaped entity List.mem_cons_self).length_texts_le whitespace
      have hothers := ih (fun other hother => hshaped other (List.mem_cons_of_mem _ hother)) hrest
      have hsplit : totalLength input whitespace (entity :: rest) =
          ((entity.texts input whitespace).map List.length).sum +
            totalLength input whitespace rest := by
        simp [totalLength]
      rw [hsplit]
      unfold Span.length at hfirst
      omega

end VersionedXml
