import VersionedXml.Proofs.Entity.Tiling

/-!
# The bytes of entities

Whatever the input is, the bytes of every entity are those of its kind.  A text is free of `<`, and an
enclosed section stands between its opening and its ending.  A tag begins with its name and ends in
`>`, and it is self-closing exactly if it ends in `/>`.  The attributes of a tag stand one behind the
other, and each value is quoted or bare.

In addition to what the shape of entities needs, the scanner keeps in mind how the entity in progress
was opened, and that a `/` which it has passed over is not followed by a `>`.
-/

namespace VersionedXml

/-! ## The forms -/

structure Bytes.IsName (name : Bytes) : Prop where
  ne_nil : name ≠ []
  bytes : ∀ b ∈ name, Byte.isNameByte b = true

/-- A value without quotes around it: neither space nor `>` stands in it, and it does not begin with
a quote. -/
structure Bytes.IsBareValue (value : Bytes) : Prop where
  ne_nil : value ≠ []
  bytes : ∀ b ∈ value, Byte.isNameByte b = true
  head? : ∀ b, value.head? = some b → Byte.isQuote b = false

/-- The span stands between two equal quotes, and there is no such quote in it. -/
def Span.IsQuoted (input : Buffer) (span : Span) : Prop :=
  ∃ quote, Byte.isQuote quote = true ∧ quote ∉ span.slice input ∧ 0 < span.start ∧
    (⟨span.start - 1, span.stop + 1⟩ : Span).slice input = quote :: (span.slice input ++ [quote])

def Span.IsValue (input : Buffer) (span : Span) : Prop :=
  span.slice input ≠ [] → span.IsQuoted input ∨ (span.slice input).IsBareValue

/-- The span of an opening tag: its name follows the `<`, its attributes follow the name, and it ends
in `>`. -/
structure Span.IsOpening (maxAttributes : Nat) (input : Buffer) (span name : Span)
    (attributes : List Attribute) (selfClosing : Bool) : Prop where
  begins : Byte.less :: name.slice input <+: span.slice input
  name_start : name.start = span.start + 1
  isName : (name.slice input).IsName
  ends : [Byte.greater] <:+ span.slice input
  selfClosing_iff : selfClosing = true ↔ [Byte.slash, Byte.greater] <:+ span.slice input
  ordered : Attribute.Ordered name.stop attributes span.stop
  names : ∀ pair ∈ attributes,
    pair.name.start < pair.name.stop ∧ (pair.name.slice input).IsAttributeName
  values : ∀ pair ∈ attributes, pair.value.IsValue input
  room : attributes.length ≤ maxAttributes

structure Span.IsClosing (input : Buffer) (span name : Span) : Prop where
  begins : Byte.less :: Byte.slash :: name.slice input <+: span.slice input
  name_start : name.start = span.start + 2
  isName : (name.slice input).IsName

/-- The bytes of the entity are those of its kind. -/
def Entity.Lexical (maxAttributes : Nat) (input : Buffer) (entity : Entity) : Prop :=
  match entity.kind with
  | .opened name attributes selfClosing =>
      entity.span.IsOpening maxAttributes input name attributes selfClosing
  | .closed name false => entity.span.IsClosing input name
  | .closed name true => entity.span.isEmpty = true ∧ (name.slice input).IsName
  | .text => entity.span.slice input ≠ [] ∧ Byte.less ∉ entity.span.slice input
  | .enclosed kind content =>
      content.start = entity.span.start + kind.opening.length ∧
        entity.span.slice input = kind.opening ++ content.slice input ++ kind.ending ∧
        ¬ kind.ending <:+: content.slice input

/-! ## Bytes and cursors -/

theorem isBareValue_singleton {b : UInt8} (hb : Byte.isNameByte b = true)
    (hquote : ¬ Byte.isQuote b = true) : Bytes.IsBareValue [b] := by
  refine ⟨List.cons_ne_nil _ _, fun c hc => ?_, fun c hc => ?_⟩
  · rw [List.mem_singleton.mp hc]
    exact hb
  · cases hc
    simpa using hquote

theorem Bytes.IsBareValue.concat {value : Bytes} (hvalue : value.IsBareValue) {b : UInt8}
    (hb : Byte.isNameByte b = true) : Bytes.IsBareValue (value ++ [b]) := by
  refine ⟨List.append_ne_nil_of_left_ne_nil hvalue.ne_nil _, fun c hc => ?_, fun c hc => ?_⟩
  · rcases List.mem_append.mp hc with hold | hnew
    · exact hvalue.bytes c hold
    · rw [List.mem_singleton.mp hnew]
      exact hb
  · obtain ⟨first, others, rfl⟩ := List.exists_cons_of_ne_nil hvalue.ne_nil
    exact hvalue.head? c hc

theorem Span.slice_ne_nil {start stop : Nat} {input : Buffer} (hlt : start < stop)
    (hsize : stop ≤ input.size) : (⟨start, stop⟩ : Span).slice input ≠ [] := by
  intro hnil
  rw [slice_eq_take_drop (Nat.le_of_lt hlt) hsize] at hnil
  have hlength := congrArg List.length hnil
  simp only [List.length_take, List.length_drop, Array.length_toList, List.length_nil,
    length] at hlength
  omega

theorem Span.lt_of_slice_ne_nil {span : Span} {input : Buffer} (hne : span.slice input ≠ []) :
    span.start < span.stop := by
  have hlength := span.length_slice_le input
  have hpos := List.length_pos_iff.mpr hne
  unfold length at hlength
  omega

theorem Cursor.IsIn.slice_ahead {here : Cursor} {input : Buffer} (hin : here.IsIn input)
    {before after : Bytes} (hrest : here.rest = before ++ after) :
    (⟨here.position, here.position + before.length⟩ : Span).slice input = before := by
  rw [hin.slice_append hrest (Nat.le_refl _), Span.slice_self, List.nil_append]

def TagEnd.bytes : TagEnd → Bytes
  | plain => [Byte.greater]
  | selfClosing => [Byte.slash, Byte.greater]

theorem TagEnd.length_bytes (ending : TagEnd) : ending.bytes.length = ending.width := by
  cases ending <;> rfl

theorem TagEnd.exists_of_of? {ahead : Bytes} {ending : TagEnd} (hending : of? ahead = some ending) :
    ∃ after, ahead = ending.bytes ++ after := by
  cases ahead with
  | nil => cases hending
  | cons b rest =>
      simp only [of?] at hending
      split at hending
      · rename_i hgreater
        cases hending
        exact ⟨rest, by rw [hgreater]; rfl⟩
      · split at hending
        · rename_i hslash
          cases hending
          obtain ⟨c, others, rfl⟩ : ∃ c others, rest = c :: others := by
            cases rest with
            | nil => simp at hslash
            | cons c others => exact ⟨c, others, rfl⟩
          cases hslash.2
          exact ⟨others, by rw [hslash.1]; rfl⟩
        · cases hending

theorem TagEnd.not_greater_of_of? {b : UInt8} {rest : Bytes} (hnone : of? (b :: rest) = none)
    (hslash : b = Byte.slash) : rest.head? ≠ some Byte.greater := by
  intro hgreater
  rw [of?, if_neg (by rw [hslash]; decide), if_pos ⟨hslash, hgreater⟩] at hnone
  cases hnone

theorem TagEnd.of?_eq_none {here : Cursor} {b : UInt8} {rest : Bytes}
    (hrest : here.rest = b :: rest) (hgoesOn : ¬ (of? here.rest).isSome = true) :
    of? (b :: rest) = none := by
  rw [← hrest]
  simpa using hgoesOn

/-! ## The invariant -/

def TagHead.opening (head : TagHead) : Bytes :=
  if head.closing then [Byte.less, Byte.slash] else [Byte.less]

/-- The tag begins as its head says, and if the last byte that was read is a `/`, then no `>` comes
next. -/
structure TagHead.Begun (input : Buffer) (head : TagHead) (here : Cursor) : Prop where
  opening : (⟨head.start, head.nameStart⟩ : Span).slice input = head.opening
  slash : head.closing = false →
    ((⟨head.start, here.position⟩ : Span).slice input).getLast? = some Byte.slash →
      here.rest.head? ≠ some Byte.greater

structure Tag.Written (input : Buffer) (tag : Tag) (here : Cursor) : Prop where
  begun : tag.head.Begun input here
  values : ∀ pair ∈ tag.attributes.toList, pair.value.IsValue input

def Mode.Written (input : Buffer) (here : Cursor) : Mode → Prop
  | .text _ => True
  | .enclosed kind start =>
      here.position = start + kind.opening.length ∧
        (⟨start, here.position⟩ : Span).slice input = kind.opening
  | .tagName head => head.Begun input here
  | .tag current => current.Written input here
  | .attributeName current _ => current.Written input here
  | .beforeEquals current _ => current.Written input here
  | .beforeValue current _ => current.Written input here
  | .value current _ (some quote) start =>
      current.Written input here ∧ Byte.isQuote quote = true ∧ start = here.position ∧
        0 < start ∧ (⟨start - 1, start⟩ : Span).slice input = [quote]
  | .value current _ none start =>
      current.Written input here ∧ ((⟨start, here.position⟩ : Span).slice input).IsBareValue
  | .stopped => True

structure Move.Writes (maxAttributes : Nat) (input : Buffer) (move : Move) : Prop where
  written : move.state.mode.Written input move.state.here
  lexical : ∀ entity ∈ move.emitted, entity.Lexical maxAttributes input

section Steps

variable {maxAttributes : Nat} {input : Buffer} {head : TagHead} {tag : Tag} {name : Span}
  {here : Cursor} {b : UInt8} {rest : Bytes}

theorem Move.Writes.silent {mode : Mode} (hwritten : mode.Written input here) :
    (Move.silent mode here).Writes maxAttributes input :=
  ⟨hwritten, nofun⟩

theorem Move.Writes.stop : (Move.stop here).Writes maxAttributes input :=
  ⟨trivial, nofun⟩

/-- Bytes are passed over, of which the last is no `/` before a `>`. -/
theorem TagHead.Begun.pass (hbegun : head.Begun input here) (hin : here.IsIn input) {passed : Bytes}
    (hrest : here.rest = passed ++ [b] ++ rest) (hle : head.start ≤ here.position)
    (hslash : b = Byte.slash → rest.head? ≠ some Byte.greater) :
    head.Begun input ⟨here.position + (passed ++ [b]).length, rest⟩ where
  opening := hbegun.opening
  slash _ hlast := by
    rw [hin.slice_append hrest hle, ← List.append_assoc, List.getLast?_concat] at hlast
    exact hslash (Option.some.inj hlast)

theorem Tag.Written.next (hwritten : tag.Written input here) (hin : here.IsIn input)
    (hrest : here.rest = b :: rest) (hle : tag.head.start ≤ here.position)
    (hslash : b = Byte.slash → rest.head? ≠ some Byte.greater) :
    tag.Written input ⟨here.position + 1, rest⟩ :=
  ⟨hwritten.begun.pass hin (show here.rest = [] ++ [b] ++ rest from hrest) hle hslash,
    hwritten.values⟩

theorem Tag.Written.writes_addAttribute (hwritten : tag.Written input here) {value : Span}
    {move : Move} (hvalue : value.IsValue input)
    (hmove : (tag.addAttribute maxAttributes ⟨name, value⟩).map
      (fun enlarged => Move.silent (.tag enlarged) here) = .ok move) :
    move.Writes maxAttributes input := by
  obtain ⟨-, rfl⟩ := Tag.eq_enlarge_of_map_addAttribute hmove
  refine .silent ⟨hwritten.begun, fun pair hpair => ?_⟩
  rw [Tag.toList_enlarge] at hpair
  rcases List.mem_append.mp hpair with hold | hnew
  · exact hwritten.values pair hold
  · cases List.mem_singleton.mp hnew
    exact hvalue

theorem Span.isValue_empty (input : Buffer) (offset : Nat) : (Span.empty offset).IsValue input :=
  fun hne => absurd (Span.slice_self input offset) hne

theorem not_slash_of_eq {c : UInt8} {property : Prop} (heq : b = c) (hne : c ≠ Byte.slash) :
    b = Byte.slash → property :=
  fun hslash => absurd (heq.symm.trans hslash) hne

theorem not_slash_of_isSpace {property : Prop} (hspace : Byte.isSpace b = true) :
    b = Byte.slash → property := by
  rintro rfl
  cases hspace

theorem not_slash_of_isQuote {property : Prop} (hquote : Byte.isQuote b = true) :
    b = Byte.slash → property := by
  rintro rfl
  cases hquote

/-! ## Complete tags -/

theorem Tag.Formed.slice_eq (hformed : tag.Formed maxAttributes input here.position)
    (hbegun : tag.head.Begun input here) (hin : here.IsIn input) {ending : TagEnd} {after : Bytes}
    (hrest : here.rest = ending.bytes ++ after) :
    (⟨tag.head.start, here.position + ending.width⟩ : Span).slice input =
      tag.head.opening ++ tag.name.slice input ++
        ((⟨tag.name.stop, here.position⟩ : Span).slice input ++ ending.bytes) := by
  have hname : tag.name = ⟨tag.head.nameStart, tag.name.stop⟩ := by
    rw [← hformed.name_start]
  have hstart := tag.head.start_lt_nameStart
  have hlt := hformed.name_lt
  have hle := hformed.ordered.le
  rw [← ending.length_bytes, hin.slice_append hrest (Nat.le_of_lt hformed.start_lt),
    ← hbegun.opening, hname, Span.slice_append_slice (Nat.le_of_lt hstart) (Nat.le_of_lt hlt)
      (Nat.le_trans hle hin.1), ← List.append_assoc,
    Span.slice_append_slice (Nat.le_of_lt (Nat.lt_trans hstart hlt)) hle hin.1]

theorem Tag.Formed.isName (hformed : tag.Formed maxAttributes input here.position)
    (hin : here.IsIn input) : (tag.name.slice input).IsName := by
  have hlt : tag.name.start < tag.name.stop := hformed.name_start ▸ hformed.name_lt
  exact ⟨Span.slice_ne_nil hlt (Nat.le_trans hformed.ordered.le hin.1), hformed.bytes⟩

/-- A complete opening tag has its form. -/
theorem Tag.Formed.isOpening (hformed : tag.Formed maxAttributes input here.position)
    (hwritten : tag.Written input here) (hin : here.IsIn input) {ending : TagEnd}
    (hending : TagEnd.of? here.rest = some ending) (hopening : tag.head.closing = false) :
    (⟨tag.head.start, here.position + ending.width⟩ : Span).IsOpening maxAttributes input tag.name
      tag.attributes.toList (ending = .selfClosing) := by
  obtain ⟨after, hrest⟩ := TagEnd.exists_of_of? hending
  have hslice := hformed.slice_eq hwritten.begun hin hrest
  have hbegins : tag.head.opening = [Byte.less] := by
    rw [TagHead.opening, hopening]
    rfl
  have hends : ending.bytes <:+
      (⟨tag.head.start, here.position + ending.width⟩ : Span).slice input := by
    rw [hslice, ← List.append_assoc]
    exact List.suffix_append _ _
  refine ⟨?_, ?_, hformed.isName hin, ?_, ?_, ?_, ?_, hwritten.values, ?_⟩
  · rw [hslice, hbegins]
    exact List.prefix_append _ _
  · rw [hformed.name_start, TagHead.nameStart, hopening]
    rfl
  · refine List.IsSuffix.trans ?_ hends
    cases ending with
    | plain => exact List.suffix_refl _
    | selfClosing => exact List.suffix_append [Byte.slash] [Byte.greater]
  · cases ending with
    | selfClosing => exact ⟨fun _ => hends, fun _ => rfl⟩
    | plain =>
        -- The byte before the `>` has been passed over, so it is no `/`.
        refine ⟨fun hplain => absurd hplain (by decide), fun hsuffix => ?_⟩
        refine absurd ?_ (hwritten.begun.slash hopening ?_)
        · rw [hrest]
          rfl
        · have hconcat := hin.slice_append hrest (Nat.le_of_lt hformed.start_lt)
          rw [TagEnd.length_bytes] at hconcat
          obtain ⟨before, hbefore⟩ := hsuffix
          rw [hconcat, show [Byte.slash, Byte.greater] = [Byte.slash] ++ TagEnd.plain.bytes from rfl,
            ← List.append_assoc] at hbefore
          rw [← List.append_cancel_right hbefore, List.getLast?_concat]
  · exact hformed.ordered.mono (Nat.le_add_right _ _)
  · intro pair hpair
    have hname := hformed.names pair hpair
    exact ⟨Span.lt_of_slice_ne_nil hname.ne_nil, hname⟩
  · rw [Array.length_toList]
    exact hformed.room

theorem Tag.Formed.isClosing (hformed : tag.Formed maxAttributes input here.position)
    (hwritten : tag.Written input here) (hin : here.IsIn input) {ending : TagEnd}
    (hending : TagEnd.of? here.rest = some ending) (hclosing : tag.head.closing = true) :
    (⟨tag.head.start, here.position + ending.width⟩ : Span).IsClosing input tag.name := by
  obtain ⟨after, hrest⟩ := TagEnd.exists_of_of? hending
  have hbegins : tag.head.opening = [Byte.less, Byte.slash] := by
    rw [TagHead.opening, hclosing]
    rfl
  refine ⟨?_, ?_, hformed.isName hin⟩
  · rw [hformed.slice_eq hwritten.begun hin hrest, hbegins]
    exact List.prefix_append _ _
  · rw [hformed.name_start, TagHead.nameStart, hclosing]
    rfl

theorem Tag.Written.writes_finishTag (hwritten : tag.Written input here)
    (hformed : tag.Formed maxAttributes input here.position) (hin : here.IsIn input)
    {ending : TagEnd} (hending : TagEnd.of? here.rest = some ending) :
    (Move.finishTag tag ending here).Writes maxAttributes input := by
  refine ⟨trivial, fun entity hentity => ?_⟩
  simp only [Move.finishTag, Tag.entities] at hentity
  cases hclosing : tag.head.closing with
  | true =>
      rw [hclosing, if_pos rfl] at hentity
      cases List.mem_singleton.mp hentity
      exact hformed.isClosing hwritten hin hending hclosing
  | false =>
      rw [hclosing, if_neg Bool.false_ne_true] at hentity
      have hopening := hformed.isOpening hwritten hin hending hclosing
      cases ending with
      | plain =>
          cases List.mem_singleton.mp hentity
          exact hopening
      | selfClosing =>
          rcases List.mem_cons.mp hentity with rfl | hsecond
          · exact hopening
          · cases List.mem_singleton.mp hsecond
            exact ⟨decide_eq_true (Nat.le_refl _), hformed.isName hin⟩

/-! ## One step in each mode -/

theorem openMarkup_written {after : Bytes} (hin : here.IsIn input)
    (hrest : here.rest = Byte.less :: after) :
    (ScanState.openMarkup here).1.Written input (here.advance (ScanState.openMarkup here).2) := by
  have henclosed : ∀ kind : Enclosure, kind.opening.isPrefixOf here.rest = true →
      (Mode.enclosed kind here.position).Written input (here.advance kind.opening.length) := by
    intro kind hbegins
    obtain ⟨others, hothers⟩ := List.isPrefixOf_iff_prefix.mp hbegins
    have hposition : (here.advance kind.opening.length).position =
        here.position + kind.opening.length := by
      rw [Cursor.position_advance, ← hothers, List.length_append, Nat.min_eq_left (by omega)]
    exact ⟨hposition, by rw [hposition]; exact hin.slice_ahead hothers.symm⟩
  unfold ScanState.openMarkup
  split
  · rename_i hcomment
    exact henclosed .comment hcomment
  · split
    · rename_i hcdata
      exact henclosed .cdata hcdata
    · split
      · rename_i hinstruction
        exact henclosed .instruction hinstruction
      · split
        · rename_i hslash
          obtain ⟨others, hothers⟩ : ∃ others, here.rest = [Byte.less, Byte.slash] ++ others := by
            rw [Cursor.peekAt?, hrest] at hslash
            cases after with
            | nil => cases hslash
            | cons c others =>
                cases hslash
                exact ⟨others, hrest⟩
          exact ⟨hin.slice_ahead hothers, by rintro ⟨⟩⟩
        · have hless := hin.slice_ahead (show here.rest = [Byte.less] ++ after from hrest)
          have hposition : (here.advance 1).position = here.position + 1 := by
            rw [Cursor.position_advance, hrest, Nat.min_eq_left (by simp)]
          refine ⟨hless, fun _ hlast => ?_⟩
          rw [hposition] at hlast
          dsimp only at hlast
          rw [show here.position + 1 = here.position + [Byte.less].length from rfl, hless] at hlast
          cases hlast

theorem lexical_textEntity {start stop : Nat} (hsize : stop ≤ input.size) {entity : Entity}
    (hentity : entity ∈ ScanState.textEntity start stop)
    (hshaped : entity.Shaped maxAttributes input) : entity.Lexical maxAttributes input := by
  unfold ScanState.textEntity at hentity
  split at hentity
  · rename_i hlt
    cases List.mem_singleton.mp hentity
    exact ⟨Span.slice_ne_nil hlt hsize, hshaped⟩
  · cases hentity

theorem writes_stepText {start : Nat} (hin : here.IsIn input)
    (hvalid : (Mode.text start).Valid maxAttributes input here.position) :
    (ScanState.stepText start here).Writes maxAttributes input := by
  have hkeeps := keeps_stepText hin hvalid
  unfold ScanState.stepText at hkeeps ⊢
  split at hkeeps
  · exact .silent trivial
  · rename_i less hfound
    obtain ⟨before, after, hrest, hless, -, hadvance⟩ :=
      Cursor.exists_of_find? (List.cons_ne_nil _ _) hfound
    have hatLess := hin.advance (less - here.position)
    dsimp only at hkeeps ⊢
    rw [show here.advance (less - here.position) = ⟨less, Byte.less :: after⟩ from hadvance 0] at *
    exact ⟨openMarkup_written hatLess rfl, fun entity hentity =>
      lexical_textEntity hatLess.1 hentity (hkeeps.shaped entity hentity)⟩

theorem writes_stepEnclosed {kind : Enclosure} {start : Nat} (hin : here.IsIn input)
    (hvalid : (Mode.enclosed kind start).Valid maxAttributes input here.position)
    (hwritten : (Mode.enclosed kind start).Written input here) :
    (ScanState.stepEnclosed kind start here).Writes maxAttributes input := by
  obtain ⟨hposition, hopening⟩ := hwritten
  unfold ScanState.stepEnclosed
  split
  · exact .stop
  · rename_i found hfound
    obtain ⟨before, after, hrest, rfl, hbefore, -⟩ :=
      Cursor.exists_of_find? (by cases kind <;> exact List.cons_ne_nil _ _) hfound
    refine ⟨trivial, fun entity hentity => ?_⟩
    cases List.mem_singleton.mp hentity
    have hcontent := hin.slice_ahead hrest
    have hall := hin.slice_append (hrest.trans (List.append_assoc _ _ _).symm) hvalid
    rw [List.length_append, ← Nat.add_assoc, hopening, ← List.append_assoc] at hall
    refine ⟨hposition, ?_, ?_⟩
    · rw [hcontent]
      exact hall
    · rw [hcontent]
      exact hbefore

theorem writes_stepTagName (hin : here.IsIn input) (hrest : here.rest = b :: rest)
    (hvalid : (Mode.tagName head).Valid maxAttributes input here.position)
    (hwritten : (Mode.tagName head).Written input here) :
    (ScanState.stepTagName head here b ⟨here.position + 1, rest⟩).Writes maxAttributes input := by
  have hbegun : head.Begun input here := hwritten
  have hle : head.start ≤ here.position := hvalid.mark_le rfl
  have htag : (⟨head, ⟨head.nameStart, here.position⟩, #[]⟩ : Tag).Written input here :=
    ⟨hbegun, fun pair hpair => absurd hpair List.not_mem_nil⟩
  unfold ScanState.stepTagName
  dsimp only
  split
  · rename_i hspace
    split
    · exact .stop
    · exact .silent (htag.next hin hrest hle (not_slash_of_isSpace hspace))
  · split
    · rename_i ending hending
      split
      · exact .stop
      · rename_i hname
        exact htag.writes_finishTag (formed_of_tagName hvalid hname) hin hending
    · rename_i hnone
      exact .silent (hbegun.pass hin (show here.rest = [] ++ [b] ++ rest from hrest) hle
        (TagEnd.not_greater_of_of? (hrest ▸ hnone)))

theorem writes_stepTag (hin : here.IsIn input) (hrest : here.rest = b :: rest)
    (hvalid : (Mode.tag tag).Valid maxAttributes input here.position)
    (hwritten : (Mode.tag tag).Written input here) :
    (ScanState.stepTag tag here b ⟨here.position + 1, rest⟩).Writes maxAttributes input := by
  have htag : tag.Written input here := hwritten
  unfold ScanState.stepTag
  split
  · rename_i ending hending
    exact htag.writes_finishTag hvalid hin hending
  · rename_i hnone
    have hnext := htag.next hin hrest (hvalid.mark_le rfl)
      (TagEnd.not_greater_of_of? (hrest ▸ hnone))
    split
    · exact .silent hnext
    · exact .silent hnext

theorem writes_stepAttributeName {start : Nat} {move : Move} (hin : here.IsIn input)
    (hrest : here.rest = b :: rest)
    (hvalid : (Mode.attributeName tag start).Valid maxAttributes input here.position)
    (hwritten : (Mode.attributeName tag start).Written input here)
    (hstep : ScanState.stepAttributeName maxAttributes tag start here b
      ⟨here.position + 1, rest⟩ = .ok move) : move.Writes maxAttributes input := by
  have htag : tag.Written input here := hwritten
  have hnext := htag.next hin hrest (hvalid.mark_le rfl)
  unfold ScanState.stepAttributeName at hstep
  dsimp only at hstep
  split at hstep
  · rename_i hequals
    cases hstep
    exact .silent (hnext (not_slash_of_eq hequals (by decide)))
  · split at hstep
    · rename_i hspace
      cases hstep
      exact .silent (hnext (not_slash_of_isSpace hspace))
    · split at hstep
      · exact htag.writes_addAttribute (Span.isValue_empty _ _) hstep
      · rename_i hgoesOn
        cases hstep
        exact .silent (hnext (TagEnd.not_greater_of_of? (TagEnd.of?_eq_none hrest hgoesOn)))

theorem writes_stepBeforeEquals {move : Move} (hin : here.IsIn input)
    (hrest : here.rest = b :: rest)
    (hvalid : (Mode.beforeEquals tag name).Valid maxAttributes input here.position)
    (hwritten : (Mode.beforeEquals tag name).Written input here)
    (hstep : ScanState.stepBeforeEquals maxAttributes tag name here b
      ⟨here.position + 1, rest⟩ = .ok move) : move.Writes maxAttributes input := by
  have htag : tag.Written input here := hwritten
  have hnext := htag.next hin hrest (hvalid.mark_le rfl)
  unfold ScanState.stepBeforeEquals at hstep
  split at hstep
  · rename_i hspace
    cases hstep
    exact .silent (hnext (not_slash_of_isSpace hspace))
  · split at hstep
    · rename_i hequals
      cases hstep
      exact .silent (hnext (not_slash_of_eq hequals (by decide)))
    · exact htag.writes_addAttribute (Span.isValue_empty _ _) hstep

theorem writes_stepBeforeValue {move : Move} (hin : here.IsIn input)
    (hrest : here.rest = b :: rest)
    (hvalid : (Mode.beforeValue tag name).Valid maxAttributes input here.position)
    (hwritten : (Mode.beforeValue tag name).Written input here)
    (hstep : ScanState.stepBeforeValue maxAttributes tag name here b
      ⟨here.position + 1, rest⟩ = .ok move) : move.Writes maxAttributes input := by
  have htag : tag.Written input here := hwritten
  have hnext := htag.next hin hrest (hvalid.mark_le rfl)
  have hslice := hin.slice_ahead (show here.rest = [b] ++ rest from hrest)
  unfold ScanState.stepBeforeValue at hstep
  split at hstep
  · rename_i hspace
    cases hstep
    exact .silent (hnext (not_slash_of_isSpace hspace))
  · rename_i hspace
    split at hstep
    · rename_i hquote
      cases hstep
      exact .silent ⟨hnext (not_slash_of_isQuote hquote), hquote, rfl, Nat.succ_pos _, hslice⟩
    · rename_i hquote
      split at hstep
      · exact htag.writes_addAttribute (Span.isValue_empty _ _) hstep
      · rename_i hgoesOn
        cases hstep
        have hnone := TagEnd.of?_eq_none hrest hgoesOn
        refine .silent ⟨hnext (TagEnd.not_greater_of_of? hnone), ?_⟩
        rw [show (⟨here.position, here.position + 1⟩ : Span).slice input = [b] from hslice]
        exact isBareValue_singleton (isNameByte_of_goesOn hspace hnone) hquote

theorem writes_stepQuoted {quote : UInt8} {start : Nat} {move : Move} (hin : here.IsIn input)
    (hvalid : (Mode.value tag name (some quote) start).Valid maxAttributes input here.position)
    (hwritten : (Mode.value tag name (some quote) start).Written input here)
    (hstep : ScanState.stepQuoted maxAttributes tag name quote start here = .ok move) :
    move.Writes maxAttributes input := by
  have hle : tag.head.start ≤ here.position := hvalid.mark_le rfl
  obtain ⟨htag, hquote, rfl, hpos, hopened⟩ := hwritten
  unfold ScanState.stepQuoted at hstep
  split at hstep
  · cases hstep
    exact .stop
  · rename_i found hfound
    obtain ⟨before, after, hrest, rfl, hbefore, hadvance⟩ :=
      Cursor.exists_of_find? (List.cons_ne_nil _ _) hfound
    have hmoved : here.advance (here.position + before.length + 1 - here.position) =
        ⟨here.position + (before ++ [quote]).length, after⟩ := by
      rw [hadvance, List.length_append, ← Nat.add_assoc]
      rfl
    rw [hmoved] at hstep
    rw [← List.append_assoc] at hrest
    have hpassed := htag.begun.pass hin hrest hle (not_slash_of_isQuote hquote)
    refine Tag.Written.writes_addAttribute ⟨hpassed, htag.values⟩ (fun _ => .inl ?_) hstep
    have hvalue := hin.slice_ahead (hrest.trans (List.append_assoc _ _ _))
    have henclosed := hin.slice_append hrest (Nat.sub_le here.position 1)
    rw [hopened, List.length_append, ← Nat.add_assoc] at henclosed
    refine ⟨quote, hquote, ?_, hpos, ?_⟩
    · rw [hvalue]
      intro hmember
      obtain ⟨left, right, hsplit⟩ := List.append_of_mem hmember
      exact hbefore ⟨left, right, by rw [hsplit, List.append_assoc]; rfl⟩
    · rw [hvalue]
      exact henclosed

theorem writes_stepBare {start : Nat} {move : Move} (hin : here.IsIn input)
    (hrest : here.rest = b :: rest)
    (hvalid : (Mode.value tag name none start).Valid maxAttributes input here.position)
    (hwritten : (Mode.value tag name none start).Written input here)
    (hstep : ScanState.stepBare maxAttributes tag name start here b
      ⟨here.position + 1, rest⟩ = .ok move) : move.Writes maxAttributes input := by
  obtain ⟨htag, hbare⟩ := hwritten
  have hnext := htag.next hin hrest (hvalid.mark_le rfl)
  unfold ScanState.stepBare at hstep
  dsimp only at hstep
  split at hstep
  · rename_i hspace
    exact (hnext (not_slash_of_isSpace hspace)).writes_addAttribute (fun _ => .inr hbare) hstep
  · rename_i hspace
    split at hstep
    · exact htag.writes_addAttribute (fun _ => .inr hbare) hstep
    · rename_i hgoesOn
      cases hstep
      have hnone := TagEnd.of?_eq_none hrest hgoesOn
      refine .silent ⟨hnext (TagEnd.not_greater_of_of? hnone), ?_⟩
      rw [hin.slice_concat hrest hvalid.2]
      exact hbare.concat (isNameByte_of_goesOn hspace hnone)

/-- Every step keeps what has been written, and what it emits has its form. -/
theorem writes_step {state : ScanState} {move : Move} (hvalid : state.Valid maxAttributes input)
    (hwritten : state.mode.Written input state.here) (hrest : state.here.rest = b :: rest)
    (hstep : state.step maxAttributes b ⟨state.here.position + 1, rest⟩ = .ok move) :
    move.Writes maxAttributes input := by
  obtain ⟨mode, here⟩ := state
  obtain ⟨hin, hmode⟩ := hvalid
  cases mode with
  | text start =>
      cases hstep
      exact writes_stepText hin hmode
  | enclosed kind start =>
      cases hstep
      exact writes_stepEnclosed hin hmode hwritten
  | tagName head =>
      cases hstep
      exact writes_stepTagName hin hrest hmode hwritten
  | tag tag =>
      cases hstep
      exact writes_stepTag hin hrest hmode hwritten
  | attributeName tag start => exact writes_stepAttributeName hin hrest hmode hwritten hstep
  | beforeEquals tag name => exact writes_stepBeforeEquals hin hrest hmode hwritten hstep
  | beforeValue tag name => exact writes_stepBeforeValue hin hrest hmode hwritten hstep
  | value tag name quote start =>
      cases quote with
      | none => exact writes_stepBare hin hrest hmode hwritten hstep
      | some quote => exact writes_stepQuoted hin hmode hwritten hstep
  | stopped =>
      cases hstep
      exact .stop

end Steps

/-! ## The whole input -/

structure ScanState.Lexical (maxAttributes : Nat) (input : Buffer) (front : List Entity)
    (state : ScanState) : Prop where
  valid : state.Valid maxAttributes input
  written : state.mode.Written input state.here
  front : ∀ entity ∈ front, entity.Lexical maxAttributes input

theorem ScanState.Lexical.step {maxAttributes : Nat} {input : Buffer} {front : List Entity}
    {state : ScanState} {b : UInt8} {rest : Bytes} {move : Move}
    (hlexical : state.Lexical maxAttributes input front) (hrest : state.here.rest = b :: rest)
    (hstep : state.step maxAttributes b ⟨state.here.position + 1, rest⟩ = .ok move) :
    move.state.Lexical maxAttributes input (front ++ move.emitted) := by
  have hwrites := writes_step hlexical.valid hlexical.written hrest hstep
  refine ⟨(keeps_step hlexical.valid hrest hstep).valid, hwrites.written, ?_⟩
  intro entity hentity
  rcases List.mem_append.mp hentity with hold | hnew
  · exact hlexical.front entity hold
  · exact hwrites.lexical entity hnew

/-- At the end of the input a text in progress has its form, too. -/
theorem ScanState.Lexical.finish {maxAttributes : Nat} {input : Buffer} {front : List Entity}
    {last : ScanState} (hlexical : last.Lexical maxAttributes input front) :
    ∀ entity ∈ front ++ last.finish, entity.Lexical maxAttributes input := by
  intro entity hentity
  rcases List.mem_append.mp hentity with hold | hnew
  · exact hlexical.front entity hold
  · obtain ⟨hin, hmode⟩ := hlexical.valid
    obtain ⟨mode, here⟩ := last
    cases mode with
    | text start =>
        obtain ⟨hle, hless⟩ := hmode
        exact lexical_textEntity hin.1 hnew ((textEntity_shaped hle hless).1 entity hnew)
    | _ => cases hnew

/-- Every entity that scanning emits, whatever the input is and whether it fails or not, has the bytes
of its kind. -/
theorem scan_lexical (limits : Limits) (input : Buffer) :
    ∀ entity ∈ (scan limits.maxAttributes input).entities,
      entity.Lexical limits.maxAttributes input := by
  have hstart : (ScanState.start input).Lexical limits.maxAttributes input
      (#[] : Array Entity).toList :=
    ⟨(ScanState.start_tiled limits.maxAttributes input).valid, trivial, nofun⟩
  obtain ⟨front, last, hlexical, hends⟩ :=
    ScanState.run_induction (fun hinvariant hrest hstep => hinvariant.step hrest hstep) #[] hstart
  unfold scan
  generalize (ScanState.start input).run limits.maxAttributes #[] = scanned at hends
  cases hends with
  | finished hrest => exact hlexical.finish
  | failed hrest hstep => exact hlexical.front

/-- The input `<a b='x"y' c = d e/>`. -/
def mixedValues : Buffer :=
  #[0x3c, 0x61, 0x20, 0x62, 0x3d, 0x27, 0x78, 0x22, 0x79, 0x27, 0x20, 0x63, 0x20, 0x3d, 0x20, 0x64,
    0x20, 0x65, 0x2f, 0x3e]

/-- A quoted, a bare and an empty value in one self-closing tag. -/
theorem scan_lexical_mixedValues :
    ∃ entity ∈ (scan 3 mixedValues).entities, entity.span = ⟨0, 20⟩ ∧
      entity.span.IsOpening 3 mixedValues ⟨1, 2⟩
        [⟨⟨3, 4⟩, ⟨6, 9⟩⟩, ⟨⟨11, 12⟩, ⟨15, 16⟩⟩, ⟨⟨17, 18⟩, ⟨18, 18⟩⟩] true := by
  have hscan : (scan 3 mixedValues).entities =
      [⟨.opened ⟨1, 2⟩ [⟨⟨3, 4⟩, ⟨6, 9⟩⟩, ⟨⟨11, 12⟩, ⟨15, 16⟩⟩, ⟨⟨17, 18⟩, ⟨18, 18⟩⟩] true, ⟨0, 20⟩⟩,
        ⟨.closed ⟨1, 2⟩ true, ⟨20, 20⟩⟩] := by
    decide +kernel
  have hmember := hscan ▸ List.mem_cons_self
  exact ⟨_, hmember, rfl, scan_lexical (Limits.withMaxAttributes {} 3) mixedValues _ hmember⟩

end VersionedXml
