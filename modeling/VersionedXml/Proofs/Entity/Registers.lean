import VersionedXml.Entity.Run
import VersionedXml.Proofs.Entity.Extension

/-!
# What the registers stand for

The mode of a scan can be read off its registers.  Most registers keep what they were last used for,
and only the state says which of them count: a tag that is not being read has left its name, its
quote and its places behind, but never an attribute.  Each step with registers is a step of the mode
that they stand for, so whatever they keep besides has no influence on what is handed over.
-/

namespace VersionedXml

/-! ## Places -/

namespace Cursor

variable {here : Cursor} {input : Buffer}

theorem moveTo_add (count : Nat) :
    here.moveTo input (here.position + count) = here.advance count := by
  rw [moveTo, if_pos (Nat.le_add_right _ _), Nat.add_sub_cancel_left]

theorem moveTo_of_le {offset : Nat} (hle : here.position ≤ offset) :
    here.moveTo input offset = here.advance (offset - here.position) :=
  if_pos hle

theorem IsIn.moveTo_size (hin : here.IsIn input) : here.moveTo input input.size = here.toEnd := by
  have hlength := hin.position_add_length
  have hdistance : input.size - here.position = here.rest.length := by omega
  have hposition : (here.advance here.rest.length).position = here.position + here.rest.length := by
    rw [position_advance, Nat.min_self]
  have hrest : (here.advance here.rest.length).rest = [] := by
    rw [rest_advance, List.drop_length]
  rw [moveTo_of_le hin.1, hdistance]
  exact congrArg₂ Cursor.mk hposition hrest

theorem IsIn.seek (input : Buffer) (offset : Nat) : (seek input offset).IsIn input :=
  (start_isIn input).advance offset

theorem IsIn.moveTo (hin : here.IsIn input) (offset : Nat) :
    (here.moveTo input offset).IsIn input := by
  unfold Cursor.moveTo
  split
  · exact hin.advance _
  · exact IsIn.seek input offset

theorem peekAt?_one {b : UInt8} {rest : Bytes} (hrest : here.rest = b :: rest) :
    here.peekAt? 1 = rest.head? := by
  rw [peekAt?, hrest, List.getElem?_cons_succ, List.head?_eq_getElem?]

theorem advance_one {b : UInt8} {rest : Bytes} (hrest : here.rest = b :: rest) :
    here.advance 1 = ⟨here.position + 1, rest⟩ := by
  obtain ⟨position, ahead⟩ := here
  cases hrest
  rfl

theorem IsIn.searchFrom?_position (hin : here.IsIn input) (needle : Bytes) :
    Bytes.searchFrom? needle here.position input = here.find? needle := by
  rw [Bytes.searchFrom?, if_pos hin.1, ← hin.2, find?]

end Cursor

namespace Run

variable {σ : Type} {receive : σ → PlacedEntity → σ} {run : Run σ}

/-! ## The mode -/

def head (run : Run σ) : TagHead := ⟨run.tagStart, run.closing⟩

def tag (run : Run σ) : Tag := ⟨run.head, run.name, run.attributes⟩

def modeOf (run : Run σ) : State → Mode
  | .text => .text run.textStart
  | .enclosed kind => .enclosed kind run.tagStart
  | .tagName => .tagName run.head
  | .tag => .tag run.tag
  | .attributeName => .attributeName run.tag run.attributeStart
  | .equals => .beforeEquals run.tag run.attributeName
  | .quote => .beforeValue run.tag run.attributeName
  | .value => .value run.tag run.attributeName run.quote run.valueStart

def mode (run : Run σ) : Mode :=
  if run.stopped then .stopped else run.modeOf run.state

def scanState (run : Run σ) : ScanState := ⟨run.mode, run.here⟩

theorem not_stopped (hstopped : run.stopped = false) : ¬ run.stopped = true := by
  rw [hstopped]
  exact Bool.false_ne_true

theorem mode_eq (hstopped : run.stopped = false) : run.mode = run.modeOf run.state :=
  if_neg (not_stopped hstopped)

def State.isBehindName : State → Bool
  | .tag | .attributeName | .equals | .quote | .value => true
  | _ => false

/-- What holds of the registers between two steps. -/
structure Tidy (run : Run σ) : Prop where
  here_isIn : run.here.IsIn run.input
  stopped : run.stopped = true → run.state ≠ .text ∧ run.here.rest = []
  /-- Only a tag that is being read has attributes. -/
  attributes : run.stopped = false → run.state.isBehindName = false → run.attributes = #[]
  enclosed : run.stopped = false → ∀ kind, run.state = .enclosed kind →
    run.contentStart = run.here.position
  tagName : run.stopped = false → run.state = .tagName → run.contentStart = run.head.nameStart

theorem start_tidy (maxAttributes : Nat) (sink : σ) (input : Buffer) :
    (start maxAttributes sink input).Tidy where
  here_isIn := Cursor.start_isIn input
  stopped := nofun
  attributes := fun _ _ => rfl
  enclosed := nofun
  tagName := nofun

theorem Tidy.of_isBehindName (hin : run.here.IsIn run.input) (hstopped : run.stopped = false)
    (hstate : run.state.isBehindName = true) : run.Tidy where
  here_isIn := hin
  stopped := fun htrue => absurd htrue (not_stopped hstopped)
  attributes := fun _ hfalse => absurd (hfalse.symm.trans hstate) Bool.noConfusion
  enclosed := fun _ kind hkind => by
    rw [hkind] at hstate
    cases hstate
  tagName := fun _ hname => by
    rw [hname] at hstate
    cases hstate

/-- A step with registers ends as a step of the mode that they stand for, and hands over what that
step emits. -/
inductive Follows (receive : σ → PlacedEntity → σ) :
    Except ScanError (Run σ) → Except ScanError Move → Nat → Delivery σ → Prop where
  | ok {next : Run σ} {move : Move} {limit : Nat} {delivery : Delivery σ} (htidy : next.Tidy)
      (hlimit : next.maxAttributes = limit) (hstate : next.scanState = move.state)
      (hdelivery : next.delivery = delivery.handAll receive move.emitted) :
      Follows receive (.ok next) (.ok move) limit delivery
  | error (failure : ScanError) (limit : Nat) (delivery : Delivery σ) :
      Follows receive (.error failure) (.error failure) limit delivery

/-! ## Handing over -/

theorem flushText_eq (stop : Nat) : run.flushText receive stop =
    { run with
      delivery := run.delivery.handAll receive (ScanState.textEntity run.textStart stop) } := by
  unfold flushText ScanState.textEntity
  split
  · rfl
  · rfl

/-- A complete tag hands over its entities, and leaves no attribute. -/
theorem emitTag_eq (stop : Nat) (ending : TagEnd) :
    run.emitTag receive stop (ending = .selfClosing) =
      ({ run with
        attributes := #[]
        delivery := run.delivery.handAll receive (run.tag.entities ending stop) }).resumeText
          stop := by
  unfold emitTag Tag.entities
  rw [show run.tag.head.closing = run.closing from rfl]
  cases run.closing with
  | true => rfl
  | false =>
      cases ending with
      | plain => rfl
      | selfClosing => rfl

theorem follows_truncate (run : Run σ) (hin : run.here.IsIn run.input)
    (hstate : run.state ≠ .text) :
    Follows receive (.ok run.truncate) (.ok (.stop run.here)) run.maxAttributes run.delivery := by
  have hend : run.truncate.here = run.here.toEnd := hin.moveTo_size
  refine .ok ⟨hin.moveTo _, fun _ => ⟨hstate, ?_⟩, nofun, nofun, nofun⟩ rfl ?_ rfl
  · rw [hend]
    rfl
  · rw [scanState, hend]
    rfl

theorem resumeText_tidy {offset : Nat} (hin : run.here.IsIn run.input)
    (hstopped : run.stopped = false) (hattributes : run.attributes = #[]) :
    (run.resumeText offset).Tidy where
  here_isIn := hin.moveTo _
  stopped := fun htrue => absurd htrue (not_stopped hstopped)
  attributes := fun _ _ => hattributes
  enclosed := nofun
  tagName := nofun

theorem scanState_resumeText {count : Nat} (hstopped : run.stopped = false) :
    (run.resumeText (run.here.position + count)).scanState =
      ⟨.text (run.here.position + count), run.here.advance count⟩ := by
  have hmode : (run.resumeText (run.here.position + count)).mode =
      .text (run.here.position + count) := mode_eq hstopped
  have hhere : (run.resumeText (run.here.position + count)).here = run.here.advance count :=
    Cursor.moveTo_add count
  rw [scanState, hmode, hhere]

theorem follows_emitTag (run : Run σ) (hin : run.here.IsIn run.input)
    (hstopped : run.stopped = false) (ending : TagEnd) :
    Follows receive (.ok (run.emitTag receive (run.here.position + ending.width)
      (ending = .selfClosing))) (.ok (.finishTag run.tag ending run.here))
      run.maxAttributes run.delivery := by
  rw [emitTag_eq]
  exact .ok (resumeText_tidy hin hstopped rfl) rfl (scanState_resumeText hstopped) rfl

/-! ## Texts and enclosed sections -/

/-- The opening of markup, told byte by byte behind its `<`. -/
theorem openMarkup_eq {here : Cursor} {after : Bytes} (hrest : here.rest = Byte.less :: after) :
    ScanState.openMarkup here =
      if here.startsWithAt 1 [0x21, 0x2d, 0x2d] then (.enclosed .comment here.position, 4)
      else if here.startsWithAt 1 [0x21, 0x5b, 0x43, 0x44, 0x41, 0x54, 0x41, 0x5b] then
        (.enclosed .cdata here.position, 9)
      else if here.peekAt? 1 = some Byte.question then (.enclosed .instruction here.position, 2)
      else if here.peekAt? 1 = some Byte.slash then (.tagName ⟨here.position, true⟩, 2)
      else (.tagName ⟨here.position, false⟩, 1) := by
  have hopening : ∀ needle : Bytes,
      (Byte.less :: needle).isPrefixOf here.rest = here.startsWithAt 1 needle := by
    intro needle
    rw [Cursor.startsWithAt, hrest]
    simp [List.isPrefixOf]
  have hcomment : Enclosure.comment.opening.isPrefixOf here.rest =
      here.startsWithAt 1 [0x21, 0x2d, 0x2d] := hopening _
  have hcdata : Enclosure.cdata.opening.isPrefixOf here.rest =
      here.startsWithAt 1 [0x21, 0x5b, 0x43, 0x44, 0x41, 0x54, 0x41, 0x5b] := hopening _
  have hinstruction : Enclosure.instruction.opening.isPrefixOf here.rest = true ↔
      here.peekAt? 1 = some Byte.question := by
    rw [Cursor.peekAt?_one hrest, hrest]
    cases after with
    | nil => exact ⟨nofun, nofun⟩
    | cons b rest =>
        rw [show Enclosure.instruction.opening.isPrefixOf (Byte.less :: b :: rest) =
          (Byte.question == b && true) from rfl, Bool.and_true, beq_iff_eq, List.head?_cons,
          Option.some_inj]
        exact eq_comm
  unfold ScanState.openMarkup
  simp only [hcomment, hcdata, hinstruction]
  rfl

section Enter

variable {delivery : Delivery σ} {count : Nat} {emitted : List Entity}

theorem follows_enter (run : Run σ) {state : State} {mode : Mode} (hin : run.here.IsIn run.input)
    (hstopped : run.stopped = false) (hattributes : run.attributes = #[])
    (hcount : count ≤ run.here.rest.length)
    (hdelivery : run.delivery = delivery.handAll receive emitted)
    (hname : state = .tagName → run.here.position + count = run.head.nameStart)
    (hmode : (run.enter state (run.here.position + count)).mode = mode) :
    Follows receive (.ok (run.enter state (run.here.position + count)))
      (.ok ⟨⟨mode, run.here.advance count⟩, emitted⟩) run.maxAttributes delivery := by
  have hhere : (run.enter state (run.here.position + count)).here = run.here.advance count :=
    Cursor.moveTo_add count
  refine .ok ⟨hin.moveTo _, fun htrue => ?_, fun _ _ => hattributes, fun _ _ _ => ?_,
    fun _ => hname⟩ rfl ?_ hdelivery
  · exact absurd htrue (not_stopped hstopped)
  · rw [hhere, Cursor.position_advance, Nat.min_eq_left hcount]
    rfl
  · rw [scanState, hmode, hhere]

variable (hin : run.here.IsIn run.input) (hstopped : run.stopped = false)
  (hattributes : run.attributes = #[]) (hstart : run.tagStart = run.here.position)
  (hdelivery : run.delivery = delivery.handAll receive emitted)
include hin hstopped hattributes hstart hdelivery

theorem follows_enterEnclosed (kind : Enclosure) (hcount : count ≤ run.here.rest.length) :
    Follows receive (.ok (run.enter (.enclosed kind) (run.here.position + count)))
      (.ok ⟨⟨.enclosed kind run.here.position, run.here.advance count⟩, emitted⟩)
      run.maxAttributes delivery := by
  refine follows_enter run hin hstopped hattributes hcount hdelivery nofun ?_
  rw [← hstart]
  exact mode_eq hstopped

theorem follows_enterName (closing : Bool) (hwidth : count = if closing then 2 else 1)
    (hcount : count ≤ run.here.rest.length) :
    Follows receive
      (.ok (({ run with closing := closing } : Run σ).enter .tagName (run.here.position + count)))
      (.ok ⟨⟨.tagName ⟨run.here.position, closing⟩, run.here.advance count⟩, emitted⟩)
      run.maxAttributes delivery := by
  refine follows_enter { run with closing := closing } hin hstopped hattributes hcount hdelivery
    (fun _ => ?_) ?_
  · rw [hwidth, ← hstart]
    rfl
  · rw [← hstart]
    exact mode_eq hstopped

theorem follows_readMarkup {after : Bytes} (hrest : run.here.rest = Byte.less :: after) :
    Follows receive (.ok (run.readMarkup run.here.position))
      (.ok ⟨⟨(ScanState.openMarkup run.here).1,
        run.here.advance (ScanState.openMarkup run.here).2⟩, emitted⟩)
          run.maxAttributes delivery := by
  have hwidth := ScanState.openMarkup_width_le hrest
  unfold readMarkup
  rw [openMarkup_eq hrest] at hwidth ⊢
  by_cases hcomment : run.here.startsWithAt 1 [0x21, 0x2d, 0x2d] = true
  · simp only [if_pos hcomment] at hwidth ⊢
    exact follows_enterEnclosed hin hstopped hattributes hstart hdelivery .comment hwidth
  simp only [if_neg hcomment] at hwidth ⊢
  by_cases hcdata :
    run.here.startsWithAt 1 [0x21, 0x5b, 0x43, 0x44, 0x41, 0x54, 0x41, 0x5b] = true
  · simp only [if_pos hcdata] at hwidth ⊢
    exact follows_enterEnclosed hin hstopped hattributes hstart hdelivery .cdata hwidth
  simp only [if_neg hcdata] at hwidth ⊢
  by_cases hquestion : run.here.peekAt? 1 = some Byte.question
  · simp only [if_pos hquestion] at hwidth ⊢
    exact follows_enterEnclosed hin hstopped hattributes hstart hdelivery .instruction hwidth
  simp only [if_neg hquestion] at hwidth ⊢
  by_cases hslash : run.here.peekAt? 1 = some Byte.slash
  · simp only [if_pos hslash] at hwidth ⊢
    exact follows_enterName hin hstopped hattributes hstart hdelivery true rfl hwidth
  · simp only [if_neg hslash] at hwidth ⊢
    exact follows_enterName hin hstopped hattributes hstart hdelivery false rfl hwidth

end Enter

theorem follows_readText (htidy : run.Tidy) (hstopped : run.stopped = false)
    (hstate : run.state = .text) :
    Follows receive (.ok (run.readText receive))
      (.ok (ScanState.stepText run.textStart run.here)) run.maxAttributes run.delivery := by
  have hattributes := htidy.attributes hstopped (by rw [hstate]; rfl)
  unfold readText ScanState.stepText
  cases hfound : run.here.find? [Byte.less] with
  | none =>
      have hhere : (run.moveTo run.input.size).here = run.here.toEnd := htidy.here_isIn.moveTo_size
      have hmode : (run.moveTo run.input.size).mode = .text run.textStart :=
        (mode_eq hstopped).trans (congrArg run.modeOf hstate)
      refine .ok ⟨htidy.here_isIn.moveTo _, fun htrue => absurd htrue (not_stopped hstopped),
        fun _ _ => hattributes, fun _ kind hkind => ?_, fun _ hname => ?_⟩ rfl ?_ rfl
      · cases hstate.symm.trans hkind
      · cases hstate.symm.trans hname
      · rw [scanState, hmode, hhere]
        rfl
  | some less =>
      obtain ⟨before, after, -, -, -, hahead⟩ :=
        Cursor.exists_of_find? (List.cons_ne_nil _ _) hfound
      have hless : run.here.moveTo run.input less = run.here.advance (less - run.here.position) :=
        Cursor.moveTo_of_le (Bytes.le_of_search? hfound)
      have hatLess : run.here.advance (less - run.here.position) = ⟨less, Byte.less :: after⟩ :=
        hahead 0
      have hin := htidy.here_isIn.advance (less - run.here.position)
      have hflushed : { (run.moveTo less).flushText receive less with tagStart := less } =
          { run with
            here := ⟨less, Byte.less :: after⟩
            delivery := run.delivery.handAll receive (ScanState.textEntity run.textStart less)
            tagStart := less } := by
        rw [flushText_eq, moveTo, hless, hatLess]
      dsimp only
      rw [hflushed]
      rw [hatLess] at hin ⊢
      exact follows_readMarkup hin hstopped hattributes rfl rfl rfl

theorem follows_readEnclosed {kind : Enclosure} (htidy : run.Tidy) (hstopped : run.stopped = false)
    (hstate : run.state = .enclosed kind) :
    Follows receive (.ok (run.readEnclosed receive kind))
      (.ok (ScanState.stepEnclosed kind run.tagStart run.here)) run.maxAttributes run.delivery := by
  have hcontent := htidy.enclosed hstopped kind hstate
  have hattributes := htidy.attributes hstopped (by rw [hstate]; rfl)
  unfold readEnclosed ScanState.stepEnclosed
  rw [hcontent, htidy.here_isIn.searchFrom?_position]
  cases hfound : run.here.find? kind.ending with
  | none => exact follows_truncate run htidy.here_isIn (by rw [hstate]; exact nofun)
  | some found =>
      have hle : run.here.position ≤ found + kind.ending.length :=
        Nat.le_trans (Bytes.le_of_search? hfound) (Nat.le_add_right _ _)
      obtain ⟨count, hstop⟩ := Nat.exists_eq_add_of_le hle
      dsimp only
      rw [hstop, Nat.add_sub_cancel_left]
      exact .ok (resumeText_tidy htidy.here_isIn hstopped hattributes) rfl
        (scanState_resumeText hstopped) rfl

/-! ## Tags -/

variable {b : UInt8} {rest : Bytes}

theorem tagEnd_eq (hrest : run.here.rest = b :: rest) : TagEnd.of? run.here.rest =
    if b = Byte.greater then some .plain
    else if b = Byte.slash ∧ run.here.peekAt? 1 = some Byte.greater then some .selfClosing
    else none := by
  rw [Cursor.peekAt?_one hrest, hrest, TagEnd.of?]

theorem follows_advance (next : Run σ) {mode : Mode} (hrest : next.here.rest = b :: rest)
    (htidy : (next.advance 1).Tidy) (hmode : next.mode = mode) :
    Follows receive (.ok (next.advance 1))
      (.ok (.silent mode ⟨next.here.position + 1, rest⟩)) next.maxAttributes next.delivery := by
  have hhere : (next.advance 1).here = ⟨next.here.position + 1, rest⟩ := Cursor.advance_one hrest
  have hsame : (next.advance 1).mode = next.mode := rfl
  refine .ok htidy rfl ?_ rfl
  rw [scanState, hsame, hmode, hhere]
  rfl

/-- Behind the name of a tag a byte is passed over, and the state says what counts then. -/
theorem follows_goOn (next : Run σ) {state : State} (hin : next.here.IsIn next.input)
    (hstopped : next.stopped = false) (hrest : next.here.rest = b :: rest)
    (hstate : next.state = state) (hbehind : state.isBehindName = true) :
    Follows receive (.ok (next.advance 1))
      (.ok (.silent (next.modeOf state) ⟨next.here.position + 1, rest⟩))
      next.maxAttributes next.delivery := by
  subst hstate
  exact follows_advance next hrest (.of_isBehindName (hin.advance 1) hstopped hbehind)
    (mode_eq hstopped)

/-- A name that is not empty is followed by what may come behind it. -/
theorem follows_endName {goOn : Run σ → Run σ} {move : Move} (hin : run.here.IsIn run.input)
    (hstate : run.state = .tagName)
    (hgoOn : Follows receive
      (.ok (goOn { run with name := ⟨run.contentStart, run.here.position⟩ })) (.ok move)
      run.maxAttributes run.delivery) :
    Follows receive (.ok (run.endName goOn))
      (.ok (if (⟨run.contentStart, run.here.position⟩ : Span).isEmpty then .stop run.here
        else move)) run.maxAttributes run.delivery := by
  unfold endName
  dsimp only
  split
  · exact follows_truncate _ hin fun htext => nomatch hstate.symm.trans htext
  · exact hgoOn

theorem follows_readTagName (htidy : run.Tidy) (hstopped : run.stopped = false)
    (hstate : run.state = .tagName) (hrest : run.here.rest = b :: rest) :
    Follows receive (.ok (run.readTagName receive b))
      (.ok (ScanState.stepTagName run.head run.here b ⟨run.here.position + 1, rest⟩))
      run.maxAttributes run.delivery := by
  have hin := htidy.here_isIn
  have hattributes := htidy.attributes hstopped (by rw [hstate]; rfl)
  let named : Run σ := { run with name := ⟨run.contentStart, run.here.position⟩ }
  have htag : (⟨run.head, ⟨run.contentStart, run.here.position⟩, #[]⟩ : Tag) =
      named.tag := by
    rw [tag, show named.attributes = #[] from hattributes]
    rfl
  unfold readTagName ScanState.stepTagName
  rw [← htidy.tagName hstopped hstate, tagEnd_eq hrest]
  dsimp only
  by_cases hspace : Byte.isSpace b = true
  · simp only [if_pos hspace, htag]
    exact follows_endName hin hstate
      (follows_goOn { named with state := .tag } hin hstopped hrest rfl rfl)
  simp only [if_neg hspace]
  by_cases hgreater : b = Byte.greater
  · simp only [if_pos hgreater, htag]
    exact follows_endName hin hstate (follows_emitTag named hin hstopped .plain)
  simp only [if_neg hgreater]
  by_cases hslash : b = Byte.slash ∧ run.here.peekAt? 1 = some Byte.greater
  · simp only [if_pos hslash, htag]
    exact follows_endName hin hstate (follows_emitTag named hin hstopped .selfClosing)
  · simp only [if_neg hslash]
    refine follows_advance run hrest ?_ ((mode_eq hstopped).trans (congrArg _ hstate))
    exact ⟨hin.advance 1, fun htrue => absurd htrue (not_stopped hstopped), fun _ _ => hattributes,
      fun _ kind hkind => (nomatch hstate.symm.trans hkind), fun _ => htidy.tagName hstopped⟩

theorem follows_readTag (htidy : run.Tidy) (hstopped : run.stopped = false)
    (hstate : run.state = .tag) (hrest : run.here.rest = b :: rest) :
    Follows receive (.ok (run.readTag receive b))
      (.ok (ScanState.stepTag run.tag run.here b ⟨run.here.position + 1, rest⟩))
      run.maxAttributes run.delivery := by
  have hin := htidy.here_isIn
  have hskipped : (Byte.isSpace b || b == Byte.slash || run.tag.head.closing) = true ↔
      Byte.isSpace b = true ∨ b = Byte.slash ∨ run.closing = true := by
    rw [Bool.or_eq_true, Bool.or_eq_true, beq_iff_eq, or_assoc]
    rfl
  unfold readTag ScanState.stepTag
  rw [tagEnd_eq hrest]
  dsimp only
  by_cases hgreater : b = Byte.greater
  · simp only [if_pos hgreater]
    exact follows_emitTag run hin hstopped .plain
  simp only [if_neg hgreater]
  by_cases hslash : b = Byte.slash ∧ run.here.peekAt? 1 = some Byte.greater
  · simp only [if_pos hslash]
    exact follows_emitTag run hin hstopped .selfClosing
  simp only [if_neg hslash, hskipped]
  split
  · exact follows_goOn run hin hstopped hrest hstate rfl
  · exact follows_goOn { run with attributeStart := run.here.position, state := .attributeName } hin
      hstopped hrest rfl rfl

/-! ## Attributes -/

theorem atTagEnd_iff (hrest : run.here.rest = b :: rest) :
    run.atTagEnd b = true ↔ (TagEnd.of? run.here.rest).isSome = true := by
  rw [tagEnd_eq hrest, atTagEnd, Bool.or_eq_true, Bool.and_eq_true, decide_eq_true_iff,
    decide_eq_true_iff, decide_eq_true_iff]
  split
  · rename_i hgreater
    exact iff_of_true (.inl hgreater) rfl
  · rename_i hgreater
    split
    · rename_i hslash
      exact iff_of_true (.inr hslash) rfl
    · rename_i hslash
      exact iff_of_false (not_or.mpr ⟨hgreater, hslash⟩) Bool.false_ne_true

/-- An attribute is pushed as it is added to the tag, or refused as it is there. -/
theorem follows_pushAttribute (run : Run σ) {goOn : Run σ → Run σ} {here : Cursor} {value : Span}
    (hin : here.IsIn run.input) (hstopped : run.stopped = false)
    (hgoOn : ∀ attributes, goOn { run with attributes := attributes, state := .tag } =
      { run with attributes := attributes, state := .tag, here := here }) :
    Follows receive ((run.pushAttribute value).map goOn)
      ((run.tag.addAttribute run.maxAttributes ⟨run.attributeName, value⟩).map
        fun enlarged => .silent (.tag enlarged) here) run.maxAttributes run.delivery := by
  unfold pushAttribute
  rcases Nat.lt_or_ge run.attributes.size run.maxAttributes with hroom | hfull
  · rw [if_neg (Nat.not_le.mpr hroom), Tag.addAttribute_of_lt hroom]
    dsimp only [Except.map]
    rw [hgoOn]
    refine .ok (.of_isBehindName hin hstopped rfl) rfl ?_ rfl
    exact congrArg (ScanState.mk · here) (if_neg (not_stopped hstopped))
  · rw [if_pos hfull, Tag.addAttribute_of_le hfull]
    exact .error _ _ _

theorem follows_pushAttribute_here (run : Run σ) {value : Span} (hin : run.here.IsIn run.input)
    (hstopped : run.stopped = false) :
    Follows receive (run.pushAttribute value)
      ((run.tag.addAttribute run.maxAttributes ⟨run.attributeName, value⟩).map
        fun enlarged => .silent (.tag enlarged) run.here)
      run.maxAttributes run.delivery := by
  have hgoOn : ∀ attributes, id { run with attributes := attributes, state := .tag } =
      { run with attributes := attributes, state := .tag, here := run.here } := fun _ => rfl
  have hfollows : Follows receive ((run.pushAttribute value).map id) _ _ _ :=
    follows_pushAttribute run hin hstopped hgoOn
  rwa [Except.map_id] at hfollows

theorem follows_readAttributeName (htidy : run.Tidy) (hstopped : run.stopped = false)
    (hstate : run.state = .attributeName) (hrest : run.here.rest = b :: rest) :
    Follows receive (run.readAttributeName b)
      (ScanState.stepAttributeName run.maxAttributes run.tag run.attributeStart run.here b
        ⟨run.here.position + 1, rest⟩)
      run.maxAttributes run.delivery := by
  have hin := htidy.here_isIn
  let named : Run σ := { run with attributeName := ⟨run.attributeStart, run.here.position⟩ }
  unfold readAttributeName ScanState.stepAttributeName
  dsimp only
  split
  · exact follows_goOn { named with state := .quote } hin hstopped hrest rfl rfl
  · split
    · exact follows_goOn { named with state := .equals } hin hstopped hrest rfl rfl
    · simp only [atTagEnd_iff hrest]
      split
      · exact follows_pushAttribute_here named hin hstopped
      · exact follows_goOn run hin hstopped hrest hstate rfl

theorem follows_readEquals (htidy : run.Tidy) (hstopped : run.stopped = false)
    (hstate : run.state = .equals) (hrest : run.here.rest = b :: rest) :
    Follows receive (run.readEquals b)
      (ScanState.stepBeforeEquals run.maxAttributes run.tag run.attributeName run.here b
        ⟨run.here.position + 1, rest⟩)
      run.maxAttributes run.delivery := by
  have hin := htidy.here_isIn
  unfold readEquals ScanState.stepBeforeEquals
  split
  · exact follows_goOn run hin hstopped hrest hstate rfl
  · split
    · exact follows_goOn { run with state := .quote } hin hstopped hrest rfl rfl
    · exact follows_pushAttribute_here run hin hstopped

theorem follows_readQuote (htidy : run.Tidy) (hstopped : run.stopped = false)
    (hstate : run.state = .quote) (hrest : run.here.rest = b :: rest) :
    Follows receive (run.readQuote b)
      (ScanState.stepBeforeValue run.maxAttributes run.tag run.attributeName run.here b
        ⟨run.here.position + 1, rest⟩)
      run.maxAttributes run.delivery := by
  have hin := htidy.here_isIn
  have hquote : Byte.isQuote b = true ↔ b = Byte.doubleQuote ∨ b = Byte.singleQuote := by
    rw [Byte.isQuote, Bool.or_eq_true, beq_iff_eq, beq_iff_eq]
  unfold readQuote ScanState.stepBeforeValue
  simp only [hquote, atTagEnd_iff hrest]
  split
  · exact follows_goOn run hin hstopped hrest hstate rfl
  · split
    · exact follows_goOn
        { run with quote := some b, valueStart := run.here.position + 1, state := .value }
        hin hstopped hrest rfl rfl
    · split
      · exact follows_pushAttribute_here run hin hstopped
      · exact follows_goOn
          { run with quote := none, valueStart := run.here.position, state := .value }
          hin hstopped hrest rfl rfl

theorem follows_readQuoted {quote : UInt8} (htidy : run.Tidy) (hstopped : run.stopped = false)
    (hstate : run.state = .value) (hquote : run.quote = some quote) :
    Follows receive (run.readValue b)
      (ScanState.stepQuoted run.maxAttributes run.tag run.attributeName quote run.valueStart
        run.here)
      run.maxAttributes run.delivery := by
  have hin := htidy.here_isIn
  unfold readValue ScanState.stepQuoted
  rw [hquote]
  dsimp only
  cases hfound : run.here.find? [quote] with
  | none => exact follows_truncate run hin fun htext => nomatch hstate.symm.trans htext
  | some found =>
      have hle : run.here.position ≤ found + 1 :=
        Nat.le_trans (Bytes.le_of_search? hfound) (Nat.le_succ found)
      refine follows_pushAttribute run (hin.advance _) hstopped fun attributes => ?_
      exact congrArg (fun here => { run with attributes, state := .tag, here })
        (Cursor.moveTo_of_le hle)

theorem follows_readBare (htidy : run.Tidy) (hstopped : run.stopped = false)
    (hstate : run.state = .value) (hquote : run.quote = none) (hrest : run.here.rest = b :: rest) :
    Follows receive (run.readValue b)
      (ScanState.stepBare run.maxAttributes run.tag run.attributeName run.valueStart run.here b
        ⟨run.here.position + 1, rest⟩)
      run.maxAttributes run.delivery := by
  have hin := htidy.here_isIn
  have hnext := Cursor.advance_one hrest
  unfold readValue ScanState.stepBare
  rw [hquote]
  simp only [atTagEnd_iff hrest]
  split
  · refine follows_pushAttribute run (hnext ▸ hin.advance 1) hstopped fun attributes => ?_
    exact congrArg (fun here => { run with attributes, state := .tag, here }) hnext
  · split
    · exact follows_pushAttribute_here run hin hstopped
    · have hbare : Follows receive (.ok (run.advance 1))
          (.ok (.silent (run.modeOf .value) ⟨run.here.position + 1, rest⟩)) run.maxAttributes
          run.delivery :=
        follows_goOn run hin hstopped hrest hstate rfl
      rwa [modeOf, hquote] at hbare

/-! ## Steps and runs -/

/-- A step with registers is a step of the mode that they stand for. -/
theorem follows_step (receive : σ → PlacedEntity → σ) (htidy : run.Tidy)
    (hrest : run.here.rest = b :: rest) :
    Follows receive (run.step receive b)
      (run.scanState.step run.maxAttributes b ⟨run.here.position + 1, rest⟩)
      run.maxAttributes run.delivery := by
  have hstopped : run.stopped = false := by
    cases hstopped : run.stopped with
    | false => rfl
    | true => cases (htidy.stopped hstopped).2.symm.trans hrest
  unfold step ScanState.step
  rw [show run.scanState.mode = run.mode from rfl, mode_eq hstopped]
  cases hstate : run.state with
  | text => exact follows_readText htidy hstopped hstate
  | enclosed kind => exact follows_readEnclosed htidy hstopped hstate
  | tagName => exact follows_readTagName htidy hstopped hstate hrest
  | tag => exact follows_readTag htidy hstopped hstate hrest
  | attributeName => exact follows_readAttributeName htidy hstopped hstate hrest
  | equals => exact follows_readEquals htidy hstopped hstate hrest
  | quote => exact follows_readQuote htidy hstopped hstate hrest
  | value =>
      rw [modeOf]
      cases hquote : run.quote with
      | some quote => exact follows_readQuoted htidy hstopped hstate hquote
      | none => exact follows_readBare htidy hstopped hstate hquote hrest

/-- The end of the input completes the same text. -/
theorem delivery_finish (htidy : run.Tidy) (hrest : run.here.rest = []) :
    (run.finish receive).delivery = run.delivery.handAll receive run.scanState.finish := by
  have hposition : run.here.position = run.input.size := by
    have hlength := htidy.here_isIn.position_add_length
    rwa [hrest] at hlength
  unfold finish ScanState.finish
  rw [show run.scanState.mode = run.mode from rfl]
  by_cases htext : run.state = .text
  · have hstopped : run.stopped = false :=
      Bool.eq_false_iff.mpr fun hstopped => (htidy.stopped hstopped).1 htext
    rw [if_pos htext, mode_eq hstopped, htext, flushText_eq, ← hposition]
    rfl
  · rw [if_neg htext, mode]
    by_cases hstopped : run.stopped = true
    · rw [if_pos hstopped]
      rfl
    · rw [if_neg hstopped]
      cases hstate : run.state with
      | text => exact absurd hstate htext
      | _ => rfl

section Loop

variable {steps : Nat}

theorem loop_of_rest_eq_nil (hrest : run.here.rest = []) :
    loop receive (steps + 1) run = some (run.finish receive, none) := by
  rw [loop, Cursor.peek?, hrest]
  rfl

theorem loop_of_step_eq_error {failure : ScanError} (hrest : run.here.rest = b :: rest)
    (hstep : run.step receive b = .error failure) :
    loop receive (steps + 1) run = some (run, some failure) := by
  rw [loop, Cursor.peek?, hrest]
  simp only [List.head?_cons, hstep]

theorem loop_of_step_eq_ok {next : Run σ} (hrest : run.here.rest = b :: rest)
    (hstep : run.step receive b = .ok next) :
    loop receive (steps + 1) run = loop receive steps next := by
  rw [loop, Cursor.peek?, hrest]
  simp only [List.head?_cons, hstep]

/-- The loop ends, and hands over what the mode that the registers stand for lets it hand over:
whatever they keep besides makes no difference. -/
theorem loop_eq_deliver (receive : σ → PlacedEntity → σ) (htidy : run.Tidy) {state : ScanState}
    {limit : Nat} {delivery : Delivery σ} (hstate : run.scanState = state)
    (hlimit : run.maxAttributes = limit) (hdelivery : run.delivery = delivery)
    (hsteps : state.remaining < steps) :
    (loop receive steps run).map (fun ended => (ended.1.delivery, ended.2)) =
      some (state.deliver limit receive delivery) := by
  fun_induction state.deliver limit receive delivery generalizing run steps with
  | case1 delivery state hrest =>
      obtain ⟨steps, rfl⟩ := Nat.exists_eq_add_one_of_ne_zero (Nat.ne_zero_of_lt hsteps)
      subst hstate hdelivery
      rw [loop_of_rest_eq_nil hrest, Option.map_some, delivery_finish htidy hrest]
  | case2 delivery state b rest hrest failure hstep =>
      obtain ⟨steps, rfl⟩ := Nat.exists_eq_add_one_of_ne_zero (Nat.ne_zero_of_lt hsteps)
      subst hstate hlimit hdelivery
      have hfollows := follows_step receive htidy hrest
      rw [show run.scanState.step _ b ⟨run.here.position + 1, rest⟩ = .error failure from hstep]
        at hfollows
      generalize hmine : run.step receive b = result at hfollows
      cases hfollows with
      | error => rw [loop_of_step_eq_error hrest hmine, Option.map_some]
  | case3 delivery state b rest hrest move hstep hless ih =>
      obtain ⟨steps, rfl⟩ := Nat.exists_eq_add_one_of_ne_zero (Nat.ne_zero_of_lt hsteps)
      subst hstate hlimit hdelivery
      have hfollows := follows_step receive htidy hrest
      rw [show run.scanState.step _ b ⟨run.here.position + 1, rest⟩ = .ok move from hstep]
        at hfollows
      generalize hmine : run.step receive b = result at hfollows
      cases hfollows with
      | ok hnext hlimit hstate hdelivery =>
          rw [loop_of_step_eq_ok hrest hmine]
          exact ih hnext hstate hlimit hdelivery
            (Nat.lt_of_lt_of_le hless (Nat.le_of_lt_succ hsteps))

/-- What is left over in the registers has no influence: machines that stand for the same mode at the
same place, and have handed over the same, go on alike. -/
theorem loop_congr {other : Run σ} (htidy : run.Tidy) (hother : other.Tidy)
    (hstate : run.scanState = other.scanState) (hlimit : run.maxAttributes = other.maxAttributes)
    (hdelivery : run.delivery = other.delivery) (hsteps : other.scanState.remaining < steps) :
    (loop receive steps run).map (fun ended => (ended.1.delivery, ended.2)) =
      (loop receive steps other).map fun ended => (ended.1.delivery, ended.2) :=
  (loop_eq_deliver receive htidy hstate hlimit hdelivery hsteps).trans
    (loop_eq_deliver receive hother rfl rfl rfl hsteps).symm

end Loop

/-- The machine hands over what scanning hands over, and always ends. -/
theorem write_eq_scanInto (maxAttributes : Nat) (receive : σ → PlacedEntity → σ) (sink : σ)
    (input : Buffer) :
    write receive maxAttributes sink input = some (scanInto maxAttributes receive sink input) := by
  have hsteps : (start maxAttributes sink input).scanState.remaining < 2 * input.size + 2 :=
    Nat.lt_succ_self _
  have hloop := loop_eq_deliver receive (start_tidy maxAttributes sink input) rfl rfl rfl hsteps
  obtain ⟨ended, hended, hdelivered⟩ := Option.map_eq_some_iff.mp hloop
  have hscanned : (ScanState.start input).deliver maxAttributes receive (.start sink input) =
      (ended.1.delivery, ended.2) := hdelivered.symm
  refine (congrArg (Option.map _) hended).trans (congrArg some ?_)
  unfold scanInto
  exact hscanned ▸ rfl

theorem collect_eq (maxAttributes : Nat) (input : Buffer) :
    collect maxAttributes input =
      some ((scan maxAttributes input).entities.map (Entity.placedIn input),
        (scan maxAttributes input).result.map List.length) := by
  have hhanded := handed_eq_map maxAttributes input
  rw [handed] at hhanded
  rw [collect, write_eq_scanInto]
  refine congrArg some (Prod.ext hhanded ?_)
  rw [scanInto_eq]

end Run

end VersionedXml
