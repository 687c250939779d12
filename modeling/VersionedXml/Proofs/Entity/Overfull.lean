import VersionedXml.Proofs.Entity.Extension
import VersionedXml.Proofs.Entity.Lexical

/-!
# Tags with too many attributes

The limit on attributes is asked at one place only: when one more attribute is added to the tag in
progress.  So two scans of an input under different limits make the same steps for as long as the
lower limit admits them.  The step that it refuses is one more attribute under the higher limit, and
whatever is emitted from there on ends behind the `<` of that tag.
-/

namespace VersionedXml

/-! ## The tag in progress -/

theorem Attribute.Ordered.length_le {start stop : Nat} {attributes : List Attribute}
    (hordered : Ordered start attributes stop) {input : Buffer}
    (hnames : ∀ pair ∈ attributes, (pair.name.slice input).IsAttributeName) :
    start + attributes.length ≤ stop := by
  induction attributes generalizing start with
  | nil => exact hordered
  | cons pair rest ih =>
      obtain ⟨hstart, hname, hbetween, hvalue, hrest⟩ := hordered
      have hne := (hnames pair List.mem_cons_self).ne_nil
      have hlt := Span.lt_of_slice_ne_nil hne
      have hothers := ih hrest fun other hother => hnames other (List.mem_cons_of_mem _ hother)
      rw [List.length_cons]
      omega

theorem Tag.Formed.size_lt {maxAttributes : Nat} {input : Buffer} {tag : Tag} {upTo : Nat}
    (hformed : tag.Formed maxAttributes input upTo) : tag.attributes.size < upTo := by
  have hlength := hformed.ordered.length_le hformed.names
  have hname := hformed.name_lt
  rw [Array.length_toList] at hlength
  omega

/-! ## Whole runs -/

namespace ScanState

inductive Reached (maxAttributes : Nat) (input : Buffer) : ScanState → Prop where
  | start : Reached maxAttributes input (.start input)
  | step {state : ScanState} {b : UInt8} {rest : Bytes} {move : Move}
      (hreached : Reached maxAttributes input state) (hrest : state.here.rest = b :: rest)
      (hstep : state.step maxAttributes b ⟨state.here.position + 1, rest⟩ = .ok move) :
      Reached maxAttributes input move.state

def EmitsFrom (offset : Nat) (entities : List Entity) : Prop :=
  ∀ entity ∈ entities, offset ≤ entity.span.stop

theorem EmitsFrom.mono {offset later : Nat} {entities : List Entity}
    (hfrom : EmitsFrom later entities) (hle : offset ≤ later) : EmitsFrom offset entities :=
  fun entity hentity => Nat.le_trans hle (hfrom entity hentity)

theorem EmitsFrom.append {offset : Nat} {left right : List Entity} (hleft : EmitsFrom offset left)
    (hright : EmitsFrom offset right) : EmitsFrom offset (left ++ right) := by
  intro entity hentity
  rcases List.mem_append.mp hentity with hold | hnew
  · exact hleft entity hold
  · exact hright entity hnew

theorem emitsFrom_textEntity {offset start stop : Nat} (hle : offset ≤ stop) :
    EmitsFrom offset (textEntity start stop) := by
  intro entity hentity
  unfold textEntity at hentity
  split at hentity
  · cases List.mem_singleton.mp hentity
    exact hle
  · cases hentity

theorem emitsFrom_tagEntities {offset stop : Nat} (tag : Tag) (ending : TagEnd)
    (hle : offset ≤ stop) : EmitsFrom offset (tag.entities ending stop) := by
  intro entity hentity
  unfold Tag.entities at hentity
  dsimp only at hentity
  split at hentity
  · cases List.mem_singleton.mp hentity
    exact hle
  · split at hentity
    · cases List.mem_singleton.mp hentity
      exact hle
    · rcases List.mem_cons.mp hentity with rfl | hsecond
      · exact hle
      · cases List.mem_singleton.mp hsecond
        exact hle

/-- What a step completes ends behind the place from which the step is made. -/
theorem Stepped.emitsFrom {state : ScanState} {move : Move} (hstepped : state.Stepped move) :
    EmitsFrom state.here.position move.emitted := by
  cases hstepped with
  | goesOn _ _ => exact nofun
  | givesUp _ => exact nofun
  | meetsMarkup _ hfound => exact emitsFrom_textEntity (Bytes.le_of_search? hfound)
  | encloses _ hfound =>
      intro entity hentity
      cases List.mem_singleton.mp hentity
      exact Nat.le_trans (Bytes.le_of_search? hfound) (Nat.le_add_right _ _)
  | finishesTag _ _ => exact emitsFrom_tagEntities _ _ (Nat.le_add_right _ _)

section

variable {maxAttributes low high : Nat} {input : Buffer} {state : ScanState}

theorem Valid.position_le {b : UInt8} {rest : Bytes} {move : Move}
    (hvalid : state.Valid maxAttributes input) (hrest : state.here.rest = b :: rest)
    (hstep : state.step maxAttributes b ⟨state.here.position + 1, rest⟩ = .ok move) :
    state.here.position ≤ move.state.here.position := by
  have hbefore := hvalid.isIn.position_add_length
  have hafter := (keeps_step hvalid hrest hstep).valid.isIn.position_add_length
  have hless := remaining_step_lt hrest hstep
  have hweight : state.mode.weight ≤ 1 := by cases state.mode <;> simp [Mode.weight]
  unfold remaining at hless
  omega

/-- What a run emits ends at or behind the place from which it begins. -/
theorem Valid.emitsFrom_run (hvalid : state.Valid maxAttributes input) :
    EmitsFrom state.here.position (state.run maxAttributes #[]).entities := by
  obtain ⟨front, last, ⟨-, hle, hfront⟩, hends⟩ : ∃ front last,
      (last.Valid maxAttributes input ∧ state.here.position ≤ last.here.position ∧
        EmitsFrom state.here.position front) ∧
      Ends maxAttributes front last (state.run maxAttributes #[]) := by
    refine run_induction ?_ #[] ⟨hvalid, Nat.le_refl _, nofun⟩
    rintro front middle b rest move ⟨hmiddle, hle, hfront⟩ hrest hstep
    have hemitted := (stepped_of_step hstep).emitsFrom.mono hle
    exact ⟨(keeps_step hmiddle hrest hstep).valid,
      Nat.le_trans hle (hmiddle.position_le hrest hstep), hfront.append hemitted⟩
  generalize state.run maxAttributes #[] = scanned at hends
  cases hends with
  | failed _ _ => exact hfront
  | finished _ =>
      refine hfront.append ?_
      unfold finish
      split
      · exact emitsFrom_textEntity hle
      · exact nofun

theorem Reached.valid (hreached : Reached maxAttributes input state) :
    state.Valid maxAttributes input := by
  induction hreached with
  | start => exact (start_tiled maxAttributes input).valid
  | step _ hrest hstep ih => exact (keeps_step ih hrest hstep).valid

/-- A scan under a higher limit goes through the same states, and through more. -/
theorem Reached.of_le (hle : low ≤ high) (hreached : Reached low input state) :
    Reached high input state := by
  induction hreached with
  | start => exact .start
  | step _ hrest hstep ih => exact .step ih hrest (step_of_le hle hstep)

structure Shared (low : Nat) (input : Buffer) (front : List Entity) (state : ScanState) :
    Prop where
  reached : Reached low input state
  tiled : ∃ stop, state.Tiled low input front stop
  leads : ∀ high, low ≤ high → Leads high (.start input) front state

theorem start_shared (low : Nat) (input : Buffer) : Shared low input [] (.start input) :=
  ⟨.start, ⟨0, start_tiled low input⟩, fun _ _ => Leads.refl _⟩

theorem Shared.step {front : List Entity} {b : UInt8} {rest : Bytes} {move : Move}
    (hshared : Shared low input front state) (hrest : state.here.rest = b :: rest)
    (hstep : state.step low b ⟨state.here.position + 1, rest⟩ = .ok move) :
    Shared low input (front ++ move.emitted) move.state := by
  refine ⟨.step hshared.reached hrest hstep, exists_tiled_of_step hshared.tiled hrest hstep, ?_⟩
  intro high hle
  exact (hshared.leads high hle).trans fun emitted =>
    run_of_step_eq_ok hrest (step_of_le hle hstep) emitted

end

theorem exists_shared (low : Nat) (input : Buffer) :
    ∃ front last, Shared low input front last ∧ Ends low front last (scan low input) :=
  run_induction (fun hshared hrest hstep => hshared.step hrest hstep) #[] (start_shared low input)

end ScanState

/-- Scanning an input collects so many attributes for the tag whose `<` stands at an offset, whether
that tag is completed or not. -/
def Collects (maxAttributes : Nat) (input : Buffer) (offset count : Nat) : Prop :=
  ∃ state tag, ScanState.Reached maxAttributes input state ∧ state.mode.tag? = some tag ∧
    tag.head.start = offset ∧ tag.attributes.size = count

/-- The tag at an offset has one attribute more than a limit admits.  It is emitted by no scan under
that limit, and nothing behind it. -/
structure Overfull (limit : Nat) (input : Buffer) (front back : List Entity) (offset : Nat) :
    Prop where
  front_le : ∀ entity ∈ front, entity.span.stop ≤ offset
  lt_back : ∀ entity ∈ back, offset < entity.span.stop
  collects : ∀ high, limit < high → Collects high input offset (limit + 1)

/-- What ends before the tag is what the lower limit lets through. -/
theorem Overfull.filter_append_eq {limit offset : Nat} {input : Buffer} {front back : List Entity}
    (hoverfull : Overfull limit input front back offset) :
    (front ++ back).filter (fun entity => entity.span.stop ≤ offset) = front := by
  have hfront : front.filter (fun entity => entity.span.stop ≤ offset) = front :=
    List.filter_eq_self.mpr fun entity hentity => by
      simpa using hoverfull.front_le entity hentity
  have hback : back.filter (fun entity => entity.span.stop ≤ offset) = [] :=
    List.filter_eq_nil_iff.mpr fun entity hentity => by
      simpa using hoverfull.lt_back entity hentity
  rw [List.filter_append, hfront, hback, List.append_nil]

/-- How a scan under a limit compares with a scan under a higher one. -/
inductive Scanned.Curbed (limit : Nat) (input : Buffer) : Scanned → Scanned → Prop where
  | admitted (entities : List Entity) : Curbed limit input ⟨entities, none⟩ ⟨entities, none⟩
  | refused {front back : List Entity} {offset : Nat} {failure? : Option ScanError}
      (hoverfull : Overfull limit input front back offset) :
      Curbed limit input ⟨front, some (.tooManyAttributes offset limit)⟩
        ⟨front ++ back, failure?⟩

namespace ScanState

/-- Where the lower limit refuses a step, the tag in progress is overfull. -/
theorem Shared.curbed_of_step_eq_error {low high : Nat} {input : Buffer} {front : List Entity}
    {state : ScanState} {b : UInt8} {rest : Bytes} {failure : ScanError} (hle : low ≤ high)
    (hshared : Shared low input front state) (hrest : state.here.rest = b :: rest)
    (hstep : state.step low b ⟨state.here.position + 1, rest⟩ = .error failure) :
    Scanned.Curbed low input ⟨front, some failure⟩ (scan high input) := by
  obtain ⟨tag, added, here, htag, hfull, rfl, hlater⟩ := exists_enlarge_of_step_eq_error hstep
  obtain ⟨stop, htiled⟩ := hshared.tiled
  have hformed := htiled.valid.mode.formed htag
  have hsize : tag.attributes.size = low := Nat.le_antisymm hformed.room hfull
  have hstart : tag.head.start < state.here.position := hformed.start_lt
  obtain ⟨htext, hmark⟩ := Mode.mark?_of_tag? htag
  have hstop : tag.head.start = stop := (htiled.awaits.less htext).2 _ hmark
  have hreached := hshared.reached.of_le hle
  have hscan : scan high input = state.run high (#[] ++ front) := hshared.leads high hle #[]
  have hfrom := hreached.valid.emitsFrom_run
  have hoverfull : Overfull low input front (state.run high #[]).entities tag.head.start := by
    refine ⟨fun entity hentity => ?_, fun entity hentity => ?_, fun limit hlimit => ?_⟩
    · rw [hstop]
      exact (htiled.tiles.le_of_mem hentity).2
    · exact Nat.lt_of_lt_of_le hstart (hfrom entity hentity)
    · have hroom : tag.attributes.size < limit := hsize ▸ hlimit
      have hcollected := (hshared.reached.of_le (Nat.le_of_lt hlimit)).step hrest (hlater limit hroom)
      refine ⟨_, tag.enlarge added, hcollected, rfl, rfl, ?_⟩
      rw [Tag.size_enlarge, hsize]
  rw [hscan, run_eq_append, Array.toList_appendList, List.nil_append]
  exact .refused hoverfull

end ScanState

/-- Two scans of an input agree for as long as the lower limit admits what they do. -/
theorem scan_curbed {low high : Nat} (hle : low ≤ high) (input : Buffer) :
    Scanned.Curbed low input (scan low input) (scan high input) := by
  obtain ⟨front, last, hshared, hends⟩ := ScanState.exists_shared low input
  generalize scan low input = scanned at hends
  cases hends with
  | failed hrest hstep => exact hshared.curbed_of_step_eq_error hle hrest hstep
  | finished hrest =>
      have hscan : scan high input = last.run high (#[] ++ front) := hshared.leads high hle #[]
      rw [hscan, ScanState.run_of_rest_eq_nil hrest, Array.toList_appendList, List.nil_append]
      exact .admitted _

/-- A limit of as many attributes as the input has bytes is never exceeded. -/
theorem scan_failure_eq_none {maxAttributes : Nat} {input : Buffer}
    (hmany : input.size ≤ maxAttributes) : (scan maxAttributes input).failure = none := by
  obtain ⟨front, last, hshared, hends⟩ := ScanState.exists_shared maxAttributes input
  generalize scan maxAttributes input = scanned at hends
  cases hends with
  | finished _ => rfl
  | failed hrest hstep =>
      obtain ⟨tag, added, here, htag, hfull, -, -⟩ :=
        ScanState.exists_enlarge_of_step_eq_error hstep
      have hvalid := hshared.reached.valid
      have hsize := (hvalid.mode.formed htag).size_lt
      have hposition := hvalid.isIn.1
      omega

end VersionedXml
