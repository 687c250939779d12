import VersionedXml.Proofs.Entity.Registers
import VersionedXml.Proofs.Entity.Shifting

/-!
# One input behind another

Where the entities of an input reach to its end and the last one is no text, the scanner is between two
constructs there.  Its registers still hold what it has read of the last ones, but the mode that they
stand for is the beginning of a text.  So what comes behind such an input is scanned as if it stood
alone.
-/

namespace VersionedXml

theorem Entity.Tiles.stop_unique {start stop other : Nat} {entities : List Entity}
    (htiles : Tiles start entities stop) (hother : Tiles start entities other) : stop = other := by
  induction entities generalizing start with
  | nil => exact htiles.symm.trans hother
  | cons entity rest ih => exact ih htiles.2.2 hother.2.2

/-- The entities reach to the end of the input, and the last one cannot go on behind it. -/
structure Entity.Exhaust (input : Buffer) (entities : List Entity) : Prop where
  tiles : Tiles 0 entities input.size
  last : ∀ entity, entities.getLast? = some entity → entity.kind ≠ .text

namespace ScanState

section

variable {maxAttributes : Nat} {input : Buffer} {front : List Entity} {stop : Nat}
  {state : ScanState}

/-- Before the end of the input something is awaited that has not been emitted. -/
theorem Tiled.stop_lt (htiled : state.Tiled maxAttributes input front stop) {b : UInt8}
    {rest : Bytes} (hrest : state.here.rest = b :: rest) : stop < input.size := by
  have hposition : state.here.position < input.size := by
    have hend := htiled.valid.isIn.position_add_length
    rw [hrest, List.length_cons] at hend
    omega
  have hmark : ∀ start, state.mode.mark? = some start → start ≤ state.here.position :=
    fun start => htiled.valid.mode.mark_le
  have hawaits := htiled.awaits
  generalize state.mode = mode at hawaits hmark
  cases hawaits with
  | text => exact Nat.lt_of_le_of_lt (hmark stop rfl) hposition
  | markup hless _ _ => exact (Array.getElem?_eq_some_iff.mp hless).1

theorem Tiled.stop_lt_of_isText (htiled : state.Tiled maxAttributes input front stop)
    (htext : state.mode.isText = false) : stop < input.size :=
  (Array.getElem?_eq_some_iff.mp (htiled.awaits.less htext).1).1

/-- Where something is awaited, the end of the input completes at most a text. -/
theorem Tiled.not_exhaust (htiled : state.Tiled maxAttributes input front stop)
    (hstop : stop < input.size) {flush : List Entity} (hflush : Entity.IsFlush input.size flush) :
    ¬ Entity.Exhaust input (front ++ flush) := by
  intro hexhaust
  rcases hflush with rfl | ⟨start, rfl⟩
  · have htiles := hexhaust.tiles
    rw [List.append_nil] at htiles
    have := htiled.tiles.stop_unique htiles
    omega
  · exact hexhaust.last _ List.getLast?_concat rfl

/-- At the end of an input that is exhausted the scanner is at the beginning of a text. -/
theorem Tiled.eq_text (htiled : state.Tiled maxAttributes input front stop)
    (hrest : state.here.rest = []) (hexhaust : Entity.Exhaust input (front ++ state.finish)) :
    state = ⟨.text input.size, ⟨input.size, []⟩⟩ ∧ state.finish = [] := by
  have hflush := (Ceases.ended hrest).isFlush_finish htiled.valid.isIn
  have hstop : stop = input.size := by
    rcases Nat.lt_or_ge stop input.size with hlt | hge
    · exact absurd hexhaust (htiled.not_exhaust hlt hflush)
    · exact Nat.le_antisymm htiled.stop_le hge
  have hend : state.here.position = input.size := by
    rw [← htiled.valid.isIn.position_add_length, hrest]
    rfl
  have htext : state.mode.isText ≠ false := fun htext =>
    Nat.ne_of_lt (htiled.stop_lt_of_isText htext) hstop
  have hawaits := htiled.awaits
  obtain ⟨mode, position, rest⟩ := state
  obtain rfl : rest = [] := hrest
  obtain rfl : position = input.size := hend
  obtain rfl : stop = input.size := hstop
  cases hawaits with
  | markup _ hmarkup _ => exact absurd hmarkup htext
  | text => exact ⟨rfl, if_neg (Nat.lt_irrefl _)⟩

/-- A run that exhausts its input goes on behind the input as from the beginning of a text. -/
theorem run_extend_of_exhaust (more : Bytes) {emitted : Array Entity}
    (htiled : ∃ stop, state.Tiled maxAttributes input emitted.toList stop)
    (hsucceeds : (state.run maxAttributes emitted).failure = none)
    (hexhaust : Entity.Exhaust input (state.run maxAttributes emitted).entities) :
    (state.extend more).run maxAttributes emitted =
      (ScanState.mk (.text input.size) ⟨input.size, more⟩).run maxAttributes
        (state.run maxAttributes emitted).entities.toArray := by
  generalize hremaining : state.remaining = remaining
  induction remaining using Nat.strongRecOn generalizing state emitted with
  | ind remaining ih =>
      obtain ⟨stop, hstate⟩ := htiled
      cases hrest : state.here.rest with
      | nil =>
          rw [run_of_rest_eq_nil hrest] at hexhaust ⊢
          obtain ⟨rfl, hfinish⟩ := hstate.eq_text hrest hexhaust
          simp [hfinish, extend, Cursor.extend]
      | cons b rest =>
          have hlonger : (state.extend more).here.rest = b :: (rest ++ more) :=
            congrArg (· ++ more) hrest
          have hresembles : Resembles more (state.step maxAttributes b _) _ :=
            resembles_step hrest more
          generalize hlong : (state.extend more).step maxAttributes b
            ⟨state.here.position + 1, rest ++ more⟩ = long at hresembles
          cases hmove : state.step maxAttributes b ⟨state.here.position + 1, rest⟩ with
          | error failure =>
              rw [run_of_step_eq_error hrest hmove] at hsucceeds
              cases hsucceeds
          | ok move =>
              obtain ⟨later, hnext⟩ := exists_tiled_of_step ⟨stop, hstate⟩ hrest hmove
              have hless := remaining_step_lt hrest hmove
              rw [hmove] at hresembles
              rw [run_of_step_eq_ok hrest hmove] at hsucceeds hexhaust ⊢
              cases hresembles with
              | same =>
                  rw [run_of_step_eq_ok hlonger hlong]
                  refine ih _ (hremaining ▸ hless) ⟨later, ?_⟩ hsucceeds hexhaust rfl
                  rwa [Array.toList_appendList]
              | waits hceases =>
                  rw [hceases.run_eq, Array.toList_appendList, List.append_nil] at hexhaust
                  have hflush := hceases.isFlush_finish hnext.valid.isIn
                  exact absurd hexhaust (hstate.not_exhaust (hstate.stop_lt hrest) hflush)
              | begins hceases htext =>
                  rw [hceases.run_eq, Array.toList_appendList] at hexhaust
                  have hflush := hceases.isFlush_finish hnext.valid.isIn
                  exact absurd hexhaust (hnext.not_exhaust (hnext.stop_lt_of_isText htext) hflush)

end

end ScanState

/-- Scanning a longer input whose first part is exhausted scans the second part from the beginning. -/
theorem scan_append_of_exhaust {maxAttributes : Nat} {first : Buffer}
    (hsucceeds : (scan maxAttributes first).failure = none)
    (hexhaust : Entity.Exhaust first (scan maxAttributes first).entities) (second : Buffer) :
    scan maxAttributes (first ++ second) =
      ⟨(scan maxAttributes first).entities ++
          ((scan maxAttributes second).shift first.size).entities,
        ((scan maxAttributes second).shift first.size).failure⟩ := by
  have hstart : (ScanState.start first).extend second.toList = ScanState.start (first ++ second) := by
    unfold ScanState.start Cursor.start
    rw [Array.toList_append]
    rfl
  have hfurther : ScanState.mk (.text first.size) ⟨first.size, second.toList⟩ =
      (ScanState.start second).shift first.size := by
    simp [ScanState.start, Cursor.start, ScanState.shift, Mode.shift, Cursor.shift]
  have htiled : ∃ stop, (ScanState.start first).Tiled maxAttributes first
      (#[] : Array Entity).toList stop :=
    ⟨0, ScanState.start_tiled maxAttributes first⟩
  have hrun := ScanState.run_extend_of_exhaust second.toList htiled hsucceeds hexhaust
  rw [hstart, hfurther] at hrun
  refine hrun.trans ?_
  rw [ScanState.run_eq_append, ScanState.run_shift]
  rfl

/-- Every byte of the input lies in one of the spans. -/
def Entity.Covers (input : Buffer) (entities : List Entity) : Prop :=
  ∀ offset < input.size, ∃ entity ∈ entities,
    entity.span.start ≤ offset ∧ offset < entity.span.stop

/-- Entities that cover an input reach to its end. -/
theorem exhaust_of_covers {maxAttributes : Nat} {input : Buffer}
    (hcovers : Entity.Covers input (scan maxAttributes input).entities)
    (hlast : input.size = 0 ∨ ∀ entity, (scan maxAttributes input).entities.getLast? = some entity →
      entity.kind ≠ .text) :
    Entity.Exhaust input (scan maxAttributes input).entities := by
  obtain ⟨stop, hsize, htiles, -⟩ := scan_tiles maxAttributes input
  have hstop : stop = input.size := by
    rcases Nat.lt_or_ge stop input.size with hlt | hge
    · obtain ⟨entity, hentity, -, hbehind⟩ := hcovers stop hlt
      have := (htiles.le_of_mem hentity).2
      omega
    · exact Nat.le_antisymm hsize hge
  refine ⟨hstop ▸ htiles, ?_⟩
  rcases hlast with hempty | hlast
  · have hnothing : scan maxAttributes (#[] : Buffer) = ⟨[], none⟩ :=
      ScanState.run_of_rest_eq_nil rfl #[]
    intro entity hentity
    rw [Array.size_eq_zero_iff.mp hempty, hnothing] at hentity
    cases hentity
  · exact hlast

theorem scan_append_of_covers (limits : Limits) {first : Buffer}
    (hsucceeds : (scan limits.maxAttributes first).failure = none)
    (hcovers : Entity.Covers first (scan limits.maxAttributes first).entities)
    (hlast : first.size = 0 ∨
      ∀ entity, (scan limits.maxAttributes first).entities.getLast? = some entity →
        entity.kind ≠ .text) (second : Buffer) :
    (scan limits.maxAttributes (first ++ second)).entities =
        (scan limits.maxAttributes first).entities ++
          (scan limits.maxAttributes second).entities.map (Entity.shift first.size) ∧
      ((scan limits.maxAttributes second).failure = none →
        (scan limits.maxAttributes (first ++ second)).failure = none) ∧
      ∀ position limit,
        (scan limits.maxAttributes second).failure = some (.tooManyAttributes position limit) →
          (scan limits.maxAttributes (first ++ second)).failure =
            some (.tooManyAttributes (first.size + position) limit) := by
  have hexhaust := exhaust_of_covers hcovers hlast
  rw [scan_append_of_exhaust hsucceeds hexhaust second]
  refine ⟨rfl, fun hnone => ?_, fun position limit hfailure => ?_⟩
  · simp only [Scanned.shift, hnone, Option.map_none]
  · simp only [Scanned.shift, hfailure, Option.map_some, ScanError.shift, Nat.add_comm]

theorem Entity.map_entity_placedIn (input : Buffer) (entities : List Entity) :
    (entities.map (placedIn input)).map PlacedEntity.entity = entities := by
  rw [List.map_map]
  exact List.map_id _

theorem Entity.getLast?_map_placedIn {input : Buffer} {entities : List Entity} {entity : Entity}
    (hlast : entities.getLast? = some entity) :
    (entities.map (placedIn input)).getLast? = some (entity.placedIn input) := by
  rw [List.getLast?_map, hlast, Option.map_some]

namespace Scanned

variable {scanned : Scanned} {count : Nat} {failure : ScanError}

theorem failure_of_result_eq_ok (hresult : scanned.result.map List.length = .ok count) :
    scanned.failure = none ∧ scanned.entities.length = count := by
  unfold result at hresult
  cases hfailure : scanned.failure with
  | none =>
      rw [hfailure] at hresult
      exact ⟨rfl, Except.ok.inj hresult⟩
  | some failure =>
      rw [hfailure] at hresult
      cases hresult

theorem failure_of_result_eq_error (hresult : scanned.result.map List.length = .error failure) :
    scanned.failure = some failure := by
  unfold result at hresult
  cases hfailure : scanned.failure with
  | none =>
      rw [hfailure] at hresult
      cases hresult
  | some found =>
      rw [hfailure] at hresult
      exact congrArg some (Except.error.inj hresult)

theorem result_of_failure_eq_none (hfailure : scanned.failure = none) :
    scanned.result.map List.length = .ok scanned.entities.length := by
  rw [result, hfailure]
  rfl

theorem result_of_failure_eq_some (hfailure : scanned.failure = some failure) :
    scanned.result.map List.length = .error failure := by
  rw [result, hfailure]
  rfl

end Scanned

/-- Nothing leaks from one construct into the next.  Where the entities of an input cover it and the
last one is no text, what comes behind the input is scanned as if it stood alone: its entities are the
same, so many bytes further on, and it succeeds or fails alike. -/
theorem Run.collect_append_of_covers (limits : Limits) {first : Buffer}
    {placed : List PlacedEntity} {count : Nat}
    (hfirst : collect limits.maxAttributes first = some (placed, .ok count))
    (hcovers : Entity.Covers first (placed.map PlacedEntity.entity))
    (hlast : first.size = 0 ∨
      ∀ last, placed.getLast? = some last → last.entity.kind ≠ .text) (second : Buffer) :
    ∃ behind outcome both whole,
      collect limits.maxAttributes second = some (behind, outcome) ∧
      collect limits.maxAttributes (first ++ second) = some (both, whole) ∧
      both.map PlacedEntity.entity = placed.map PlacedEntity.entity ++
        (behind.map PlacedEntity.entity).map (Entity.shift first.size) ∧
      (∀ more, outcome = .ok more → whole = .ok (count + more)) ∧
      ∀ position limit, outcome = .error (.tooManyAttributes position limit) →
        whole = .error (.tooManyAttributes (first.size + position) limit) := by
  rw [collect_eq] at hfirst
  obtain ⟨hplaced, hcount⟩ := Prod.mk.inj (Option.some.inj hfirst)
  obtain ⟨hsucceeds, hlength⟩ := Scanned.failure_of_result_eq_ok hcount
  subst hplaced
  rw [Entity.map_entity_placedIn] at hcovers ⊢
  obtain ⟨hentities, hgoesOn, hfails⟩ := scan_append_of_covers limits hsucceeds hcovers
    (hlast.imp_right fun hkind entity hentity => hkind _ (Entity.getLast?_map_placedIn hentity))
    second
  refine ⟨_, _, _, _, collect_eq _ _, collect_eq _ _, ?_, fun more hmore => ?_,
    fun position limit herror => ?_⟩
  · rw [Entity.map_entity_placedIn, Entity.map_entity_placedIn, hentities]
  · obtain ⟨hnone, hbehind⟩ := Scanned.failure_of_result_eq_ok hmore
    rw [Scanned.result_of_failure_eq_none (hgoesOn hnone), hentities, List.length_append,
      List.length_map, hlength, hbehind]
  · exact Scanned.result_of_failure_eq_some
      (hfails _ _ (Scanned.failure_of_result_eq_error herror))

/-- The input `<a b='c'/>`. -/
def quotedValue : Buffer := #[0x3c, 0x61, 0x20, 0x62, 0x3d, 0x27, 0x63, 0x27, 0x2f, 0x3e]

/-- The input `</d e><f g=h i>`. -/
def secondTooMany : Buffer :=
  #[0x3c, 0x2f, 0x64, 0x20, 0x65, 0x3e, 0x3c, 0x66, 0x20, 0x67, 0x3d, 0x68, 0x20, 0x69, 0x3e]

/-- Behind a tag with a quoted value a closing tag without attributes and a tag with a bare value are
scanned as at the beginning, and the second attribute is refused there. -/
theorem Run.collect_append_of_covers_quotedValue :
    ∃ placed both, collect 1 quotedValue = some (placed, .ok 2) ∧
      Entity.Covers quotedValue (placed.map PlacedEntity.entity) ∧
      collect 1 (quotedValue ++ secondTooMany) = some (both, .error (.tooManyAttributes 16 1)) ∧
      both.map PlacedEntity.entity =
        placed.map PlacedEntity.entity ++ [⟨.closed ⟨12, 13⟩ false, ⟨10, 16⟩⟩] := by
  let tags : List Entity :=
    [⟨.opened ⟨1, 2⟩ [⟨⟨3, 4⟩, ⟨6, 7⟩⟩] true, ⟨0, 10⟩⟩, ⟨.closed ⟨1, 2⟩ true, ⟨10, 10⟩⟩]
  have hscan : scan 1 quotedValue = ⟨tags, none⟩ := by decide +kernel
  have hsecond : scan 1 secondTooMany =
      ⟨[⟨.closed ⟨2, 3⟩ false, ⟨0, 6⟩⟩], some (.tooManyAttributes 6 1)⟩ := by
    decide +kernel
  have hfirst : collect 1 quotedValue = some (tags.map (Entity.placedIn quotedValue), .ok 2) := by
    rw [collect_eq, hscan]
    rfl
  have hcovers : Entity.Covers quotedValue
      ((tags.map (Entity.placedIn quotedValue)).map PlacedEntity.entity) :=
    fun offset hoffset => ⟨_, List.mem_cons_self, Nat.zero_le _, hoffset⟩
  have hlast : ∀ last, (tags.map (Entity.placedIn quotedValue)).getLast? = some last →
      last.entity.kind ≠ .text := by
    rintro last ⟨⟩
    exact nofun
  obtain ⟨behind, outcome, both, whole, hbehind, hboth, hentities, -, hfails⟩ :=
    collect_append_of_covers (Limits.withMaxAttributes {} 1) hfirst hcovers (.inr hlast)
      secondTooMany
  have hfurther := (collect_eq 1 secondTooMany).symm.trans hbehind
  rw [hsecond] at hfurther
  obtain ⟨rfl, rfl⟩ := Prod.mk.inj (Option.some.inj hfurther)
  obtain rfl := hfails 6 1 rfl
  exact ⟨_, both, hfirst, hcovers, hboth, hentities⟩

end VersionedXml
