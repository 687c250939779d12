import VersionedXml.Entity.Delivery
import VersionedXml.Proofs.Entity.Stepping

/-!
# Entities tile the input

Whatever the input is, each entity begins where the one before it ends, and the bytes of all
entities together are a beginning of the input.  It is the whole input unless the scanner stops at a
`<` whose markup is malformed, cut off or overfull.  The same entities, in the same order, are what a
sink receives, and as many as are counted.
-/

namespace VersionedXml

/-! ## Spans side by side -/

theorem Span.slice_append_slice {input : Buffer} {start middle stop : Nat} (hstart : start ≤ middle)
    (hstop : middle ≤ stop) (hsize : stop ≤ input.size) :
    (⟨start, middle⟩ : Span).slice input ++ (⟨middle, stop⟩ : Span).slice input =
      (⟨start, stop⟩ : Span).slice input := by
  rw [slice_eq_take_drop hstart (Nat.le_trans hstop hsize), slice_eq_take_drop hstop hsize,
    slice_eq_take_drop (Nat.le_trans hstart hstop) hsize]
  have hlength : stop - start = (middle - start) + (stop - middle) := by omega
  have hmiddle : start + (middle - start) = middle := by omega
  simp only [length]
  rw [hlength, List.take_add, List.drop_drop, hmiddle]

namespace Entity

theorem Tiles.le {start stop : Nat} {entities : List Entity} (htiles : Tiles start entities stop) :
    start ≤ stop := by
  induction entities generalizing start with
  | nil => exact Nat.le_of_eq htiles
  | cons entity rest ih =>
      obtain ⟨-, hle, hrest⟩ := htiles
      exact Nat.le_trans hle (ih hrest)

/-- The bytes of entities side by side are the bytes between their two ends. -/
theorem Tiles.flatMap_slice {start stop : Nat} {entities : List Entity} {input : Buffer}
    (htiles : Tiles start entities stop) (hsize : stop ≤ input.size) :
    (entities.flatMap fun entity => entity.span.slice input) =
      (⟨start, stop⟩ : Span).slice input := by
  induction entities generalizing start with
  | nil =>
      cases htiles
      exact (Span.slice_self input _).symm
  | cons entity rest ih =>
      obtain ⟨rfl, hle, hrest⟩ := htiles
      rw [List.flatMap_cons, ih hrest]
      exact Span.slice_append_slice hle hrest.le hsize

/-- The entity has bytes, unless it is a close that was supplied behind a self-closing tag. -/
def Solid (entity : Entity) : Prop :=
  entity.span.isEmpty = true ↔ ∃ name, entity.kind = .closed name true

theorem solid_of_lt {kind : EntityKind} {start stop : Nat}
    (hkind : ∀ name, kind ≠ .closed name true) (hlt : start < stop) :
    (⟨kind, ⟨start, stop⟩⟩ : Entity).Solid := by
  constructor
  · intro hempty
    simp only [Span.isEmpty, decide_eq_true_eq] at hempty
    omega
  · rintro ⟨name, hname⟩
    exact absurd hname (hkind name)

theorem solid_supplied (name : Span) (offset : Nat) :
    (⟨.closed name true, Span.empty offset⟩ : Entity).Solid :=
  ⟨fun _ => ⟨name, rfl⟩, fun _ => decide_eq_true (Nat.le_refl offset)⟩

end Entity

namespace ScanState

/-! ## The invariant -/

/-- What comes behind the entities emitted so far: a text that begins there, or a `<`. -/
inductive Awaits (input : Buffer) (stop : Nat) : Mode → Prop where
  | text : Awaits input stop (.text stop)
  | markup {mode : Mode} (hless : input[stop]? = some Byte.less) (htext : mode.isText = false)
      (hmark : ∀ start, mode.mark? = some start → start = stop) : Awaits input stop mode

structure Tiled (maxAttributes : Nat) (input : Buffer) (front : List Entity) (stop : Nat)
    (state : ScanState) : Prop where
  valid : state.Valid maxAttributes input
  tiles : Entity.Tiles 0 front stop
  solid : ∀ entity ∈ front, entity.Solid
  awaits : Awaits input stop state.mode

section

variable {maxAttributes : Nat} {input : Buffer} {front emitted : List Entity} {stop later : Nat}
  {state : ScanState} {move : Move}

theorem Tiled.append (htiled : state.Tiled maxAttributes input front stop)
    (hvalid : move.state.Valid maxAttributes input)
    (htiles : Entity.Tiles stop move.emitted later) (hsolid : ∀ entity ∈ move.emitted, entity.Solid)
    (hawaits : Awaits input later move.state.mode) :
    move.state.Tiled maxAttributes input (front ++ move.emitted) later := by
  refine ⟨hvalid, htiled.tiles.append htiles, ?_, hawaits⟩
  intro entity hentity
  rcases List.mem_append.mp hentity with hold | hnew
  · exact htiled.solid entity hold
  · exact hsolid entity hnew

theorem solid_textEntity (start stop : Nat) : ∀ entity ∈ textEntity start stop, entity.Solid := by
  intro entity hentity
  unfold textEntity at hentity
  split at hentity
  · rename_i hlt
    cases List.mem_singleton.mp hentity
    exact Entity.solid_of_lt nofun hlt
  · cases hentity

theorem solid_tagEntities {tag : Tag} {ending : TagEnd} (hlt : tag.head.start < stop) :
    ∀ entity ∈ tag.entities ending stop, entity.Solid := by
  intro entity hentity
  unfold Tag.entities at hentity
  dsimp only at hentity
  split at hentity
  · cases List.mem_singleton.mp hentity
    exact Entity.solid_of_lt (by rintro name ⟨⟩) hlt
  · split at hentity
    · cases List.mem_singleton.mp hentity
      exact Entity.solid_of_lt nofun hlt
    · rcases List.mem_cons.mp hentity with rfl | hsecond
      · exact Entity.solid_of_lt nofun hlt
      · cases List.mem_singleton.mp hsecond
        exact Entity.solid_supplied _ _

theorem openMarkup_mark (here : Cursor) :
    (openMarkup here).1.isText = false ∧ (openMarkup here).1.mark? = some here.position := by
  unfold openMarkup
  repeat' split
  all_goals exact ⟨rfl, rfl⟩

/-- The first `<` ahead stands in the input at the place where markup begins. -/
theorem at_less_of_find? {here : Cursor} (hin : here.IsIn input) {less : Nat}
    (hfound : here.find? [Byte.less] = some less) :
    (here.advance (less - here.position)).position = less ∧ input[less]? = some Byte.less := by
  obtain ⟨before, after, -, -, -, hadvance⟩ := Cursor.exists_of_find? (List.cons_ne_nil _ _) hfound
  have hatLess : here.advance (less - here.position) = ⟨less, Byte.less :: after⟩ := hadvance 0
  have hplace := hin.advance (less - here.position)
  rw [hatLess] at hplace ⊢
  refine ⟨rfl, ?_⟩
  rw [← Array.getElem?_toList, ← List.head?_drop, ← hplace.2]
  rfl

theorem eq_text_of_isText {mode : Mode} (htext : mode.isText = true)
    (hmark : mode.mark? = some stop) : mode = .text stop := by
  cases mode with
  | text start => rw [Option.some.inj hmark]
  | _ => cases htext

theorem Awaits.eq_of_text {start : Nat} (hawaits : Awaits input stop (.text start)) :
    start = stop := by
  cases hawaits with
  | text => rfl
  | markup _ htext _ => cases htext

/-- Outside of texts there is a `<` behind the entities emitted so far. -/
theorem Awaits.less {mode : Mode} (hawaits : Awaits input stop mode) (htext : mode.isText = false) :
    input[stop]? = some Byte.less ∧ ∀ start, mode.mark? = some start → start = stop := by
  cases hawaits with
  | text => cases htext
  | markup hless _ hmark => exact ⟨hless, hmark⟩

/-- A step keeps the entities side by side. -/
theorem exists_tiled_of_step {b : UInt8} {rest : Bytes}
    (htiled : ∃ stop, state.Tiled maxAttributes input front stop)
    (hrest : state.here.rest = b :: rest)
    (hstep : state.step maxAttributes b ⟨state.here.position + 1, rest⟩ = .ok move) :
    ∃ later, move.state.Tiled maxAttributes input (front ++ move.emitted) later := by
  obtain ⟨stop, htiled⟩ := htiled
  have hvalid := (keeps_step htiled.valid hrest hstep).valid
  have hbefore : ∀ start, state.mode.mark? = some start → start ≤ state.here.position :=
    fun start hmark => htiled.valid.mode.mark_le hmark
  have hawaits := htiled.awaits
  -- Only in the last three cases something is emitted, and the end of the entities moves.
  cases stepped_of_step hstep with
  | @goesOn mode here htext hmark =>
      refine ⟨stop, htiled.append hvalid rfl nofun ?_⟩
      generalize state.mode = old at hawaits htext hmark
      cases hawaits with
      | text =>
          rw [show (Move.silent mode here).state.mode = .text stop from eq_text_of_isText htext hmark]
          exact .text
      | markup hless hother hsame =>
          exact .markup hless (htext.trans hother) fun start hstart => hsame start (hmark ▸ hstart)
  | givesUp htext =>
      refine ⟨stop, htiled.append hvalid rfl nofun (.markup (hawaits.less htext).1 rfl ?_)⟩
      intro start hstart
      cases hstart
  | @meetsMarkup start less hmode hfound =>
      have hstart : start = stop := Awaits.eq_of_text (hmode ▸ hawaits)
      subst hstart
      have hle : start ≤ less :=
        Nat.le_trans (hbefore start (by rw [hmode]; rfl)) (Bytes.le_of_search? hfound)
      obtain ⟨hposition, hless⟩ := at_less_of_find? htiled.valid.isIn hfound
      obtain ⟨htext, hmark⟩ := openMarkup_mark (state.here.advance (less - state.here.position))
      refine ⟨less, htiled.append hvalid (Entity.tiles_textEntity hle) (solid_textEntity start less) ?_⟩
      refine .markup hless htext fun other hother => ?_
      exact Option.some.inj (hother.symm.trans (hmark.trans (congrArg some hposition)))
  | @encloses kind start found here hmode hfound =>
      obtain ⟨-, hsame⟩ := hawaits.less (by rw [hmode]; rfl)
      have hstart : start = stop := hsame start (by rw [hmode]; rfl)
      subst hstart
      have hle := hbefore start (by rw [hmode]; rfl)
      have hfirst : state.here.position ≤ found := Bytes.le_of_search? hfound
      have hending : 0 < kind.ending.length := by cases kind <;> decide
      refine ⟨_, htiled.append hvalid ⟨rfl, ?_, rfl⟩ ?_ .text⟩
      · dsimp only
        omega
      · intro entity hentity
        cases List.mem_singleton.mp hentity
        exact Entity.solid_of_lt nofun (by omega)
  | @finishesTag tag ending htext hmark =>
      obtain ⟨-, hsame⟩ := hawaits.less htext
      have hstart : tag.head.start = stop := hsame _ hmark
      subst hstart
      have hle := hbefore _ hmark
      have hwidth := ending.width_pos
      refine ⟨_, htiled.append hvalid (Entity.tiles_tagEntities ?_) (solid_tagEntities ?_) .text⟩
      · omega
      · omega

theorem Tiled.stop_le (htiled : state.Tiled maxAttributes input front stop) :
    stop ≤ input.size := by
  have hmarked : ∀ start, state.mode.mark? = some start → start ≤ input.size :=
    fun start hmark => Nat.le_trans (htiled.valid.mode.mark_le hmark) htiled.valid.isIn.1
  have hawaits := htiled.awaits
  generalize state.mode = mode at hawaits hmarked
  cases hawaits with
  | text => exact hmarked stop rfl
  | markup hless _ _ => exact Nat.le_of_lt (Array.getElem?_eq_some_iff.mp hless).1

/-- At the end of the input the entities reach to it, or markup is cut off. -/
theorem Tiled.finish (htiled : state.Tiled maxAttributes input front stop)
    (hrest : state.here.rest = []) :
    ∃ later ≤ input.size, Entity.Tiles 0 (front ++ state.finish) later ∧
      (∀ entity ∈ front ++ state.finish, entity.Solid) ∧
      (later = input.size ∨ input[later]? = some Byte.less) := by
  have hend : state.here.position = input.size := by
    rw [← htiled.valid.isIn.position_add_length, hrest]
    rfl
  by_cases htext : state.mode = .text stop
  · have hfinish : state.finish = textEntity stop input.size := by
      rw [ScanState.finish, htext, ← hend]
    rw [hfinish]
    refine ⟨input.size, Nat.le_refl _, htiled.tiles.append (Entity.tiles_textEntity htiled.stop_le), ?_,
      .inl rfl⟩
    intro entity hentity
    rcases List.mem_append.mp hentity with hold | hnew
    · exact htiled.solid entity hold
    · exact solid_textEntity _ _ entity hnew
  · have hawaits := htiled.awaits
    cases hmode : state.mode with
    | text start =>
        rw [hmode] at hawaits htext
        cases hawaits with
        | text => exact absurd rfl htext
        | markup _ hother _ => cases hother
    | _ =>
        rw [ScanState.finish, hmode, List.append_nil]
        rw [hmode] at hawaits
        exact ⟨stop, htiled.stop_le, htiled.tiles, htiled.solid, .inr (hawaits.less rfl).1⟩

end

theorem start_tiled (maxAttributes : Nat) (input : Buffer) :
    (start input).Tiled maxAttributes input [] 0 := by
  refine ⟨⟨Cursor.start_isIn input, Nat.le_refl _, ?_⟩, rfl, nofun, .text⟩
  show Byte.less ∉ (⟨0, 0⟩ : Span).slice input
  rw [Span.slice_self]
  exact List.not_mem_nil

end ScanState

/-- The entities of an input tile a beginning of it.  Where they end, the input ends, or there is a
`<`; a failure says where they end. -/
theorem scan_tiles (maxAttributes : Nat) (input : Buffer) :
    ∃ stop ≤ input.size, Entity.Tiles 0 (scan maxAttributes input).entities stop ∧
      (∀ entity ∈ (scan maxAttributes input).entities, entity.Solid) ∧
      ((scan maxAttributes input).failure = none →
        stop = input.size ∨ input[stop]? = some Byte.less) ∧
      ∀ failure, (scan maxAttributes input).failure = some failure →
        failure = .tooManyAttributes stop maxAttributes ∧ input[stop]? = some Byte.less := by
  obtain ⟨front, last, ⟨stop, htiled⟩, hends⟩ : ∃ front last,
      (∃ stop, last.Tiled maxAttributes input front stop) ∧
        ScanState.Ends maxAttributes front last (scan maxAttributes input) :=
    ScanState.run_induction ScanState.exists_tiled_of_step #[]
      ⟨0, ScanState.start_tiled maxAttributes input⟩
  generalize scan maxAttributes input = scanned at hends
  cases hends with
  | finished hrest =>
      obtain ⟨later, hsize, htiles, hsolid, hlast⟩ := htiled.finish hrest
      exact ⟨later, hsize, htiles, hsolid, fun _ => hlast, nofun⟩
  | failed hrest hstep =>
      obtain ⟨tag, -, -, htag, -, hfailure, -⟩ := ScanState.exists_enlarge_of_step_eq_error hstep
      obtain ⟨htext, hmark⟩ := Mode.mark?_of_tag? htag
      obtain ⟨hless, hsame⟩ := htiled.awaits.less htext
      refine ⟨stop, htiled.stop_le, htiled.tiles, htiled.solid, nofun, ?_⟩
      rintro failure ⟨⟩
      rw [hfailure, hsame _ hmark]
      exact ⟨rfl, hless⟩

/-! ## Handing over -/

namespace Entity

def placeFrom (tracker : Tracker) : List Entity → List PlacedEntity × Tracker
  | [] => ([], tracker)
  | entity :: rest =>
      let placed := entity.place tracker
      let others := placeFrom placed.2 rest
      (placed.1 :: others.1, others.2)

theorem placeAll_eq (input : Buffer) (entities : List Entity) :
    placeAll input entities = (placeFrom (Tracker.start input) entities).1 := by
  have hfold : ∀ (known : Array PlacedEntity) (tracker : Tracker),
      (entities.foldl (fun (state : Array PlacedEntity × Tracker) (entity : Entity) =>
        let placed := entity.place state.2
        (state.1.push placed.1, placed.2)) (known, tracker)).1.toList =
        known.toList ++ (placeFrom tracker entities).1 := by
    induction entities with
    | nil => simp [placeFrom]
    | cons entity rest ih =>
        intro known tracker
        simp only [List.foldl_cons, placeFrom, ih, Array.toList_push, List.append_assoc,
          List.singleton_append]
  exact hfold #[] (Tracker.start input)

theorem map_entity_placeFrom (tracker : Tracker) (entities : List Entity) :
    (placeFrom tracker entities).1.map PlacedEntity.entity = entities := by
  induction entities generalizing tracker with
  | nil => rfl
  | cons entity rest ih =>
      simp only [placeFrom, List.map_cons, ih]
      rfl

theorem map_entity_placeAll (input : Buffer) (entities : List Entity) :
    (placeAll input entities).map PlacedEntity.entity = entities := by
  rw [placeAll_eq, map_entity_placeFrom]

end Entity

section Delivery

variable {σ : Type} (receive : σ → PlacedEntity → σ)

/-- A run that hands over what it emits emits what a run collects. -/
theorem ScanState.deliver_eq (maxAttributes : Nat) {state : ScanState} {delivery : Delivery σ}
    (emitted : Array Entity) (before : Delivery σ)
    (hdelivery : delivery = before.handAll receive emitted.toList) :
    state.deliver maxAttributes receive delivery =
      (before.handAll receive (state.run maxAttributes emitted).entities,
        (state.run maxAttributes emitted).failure) := by
  fun_induction state.deliver maxAttributes receive delivery generalizing emitted with
  | case1 delivery state hrest =>
      rw [run_of_rest_eq_nil hrest, hdelivery]
      simp [Delivery.handAll]
  | case2 delivery state b rest hrest failure hstep =>
      rw [run_of_step_eq_error hrest hstep, hdelivery]
  | case3 delivery state b rest hrest move hstep _ ih =>
      rw [run_of_step_eq_ok hrest hstep]
      refine ih (emitted ++ move.emitted) ?_
      rw [hdelivery]
      simp [Delivery.handAll]

/-- Handing entities over one by one places them and counts them. -/
theorem Delivery.handAll_eq (delivery : Delivery σ) (entities : List Entity) :
    delivery.handAll receive entities =
      ⟨(Entity.placeFrom delivery.tracker entities).1.foldl receive delivery.sink,
        (Entity.placeFrom delivery.tracker entities).2, delivery.count + entities.length⟩ := by
  induction entities generalizing delivery with
  | nil => rfl
  | cons entity rest ih =>
      have hrest := ih (delivery.hand receive entity)
      simp only [handAll, hand] at hrest
      simp only [handAll, hand, List.foldl_cons, Entity.placeFrom, hrest, List.length_cons]
      congr 1
      omega

/-- A sink receives the entities of the scan, each with its positions, and their number is the
result. -/
theorem scanInto_eq (maxAttributes : Nat) (sink : σ) (input : Buffer) :
    scanInto maxAttributes receive sink input =
      ((Entity.placeAll input (scan maxAttributes input).entities).foldl receive sink,
        (scan maxAttributes input).result.map List.length) := by
  have hdeliver : (ScanState.start input).deliver maxAttributes receive (.start sink input) =
      ((Delivery.start sink input).handAll receive (scan maxAttributes input).entities,
        (scan maxAttributes input).failure) :=
    ScanState.deliver_eq receive maxAttributes #[] (.start sink input) rfl
  rw [Delivery.handAll_eq] at hdeliver
  simp only [scanInto, hdeliver, Entity.placeAll_eq, Scanned.result]
  simp only [Delivery.start, Nat.zero_add]
  cases (scan maxAttributes input).failure with
  | none => rfl
  | some failure => rfl

end Delivery

/-- Scanning loses nothing: every sink receives the same entities, which lie side by side from the
first byte on, and only a supplied close has no bytes.  If scanning succeeds, they are counted, and
they end with the input or before a `<`; if it fails, they end before the `<` of the tag with too
many attributes. -/
theorem scanInto_lossless (limits : Limits) (input : Buffer) :
    ∃ (handed : List PlacedEntity) (outcome : Except ScanError Nat) (stop : Nat),
      (∀ (σ : Type) (receive : σ → PlacedEntity → σ) (sink : σ),
        scanInto limits.maxAttributes receive sink input = (handed.foldl receive sink, outcome)) ∧
      stop ≤ input.size ∧
      Entity.Tiles 0 (handed.map PlacedEntity.entity) stop ∧
      (∀ placed ∈ handed, placed.entity.Solid) ∧
      (handed.flatMap fun placed => placed.entity.span.slice input) = input.toList.take stop ∧
      (∀ count, outcome = .ok count →
        count = handed.length ∧ (stop = input.size ∨ input[stop]? = some Byte.less)) ∧
      ∀ failure, outcome = .error failure →
        failure = .tooManyAttributes stop limits.maxAttributes ∧
          input[stop]? = some Byte.less := by
  obtain ⟨stop, hsize, htiles, hsolid, hsucceeds, hfails⟩ := scan_tiles limits.maxAttributes input
  have hinto := fun (σ : Type) (receive : σ → PlacedEntity → σ) (sink : σ) =>
    scanInto_eq receive limits.maxAttributes sink input
  generalize scan limits.maxAttributes input = scanned at *
  have hplaced := Entity.map_entity_placeAll input scanned.entities
  refine ⟨Entity.placeAll input scanned.entities, _, stop, hinto, hsize, hplaced.symm ▸ htiles, ?_,
    ?_, ?_, ?_⟩
  · intro placed hmember
    exact hsolid _ (hplaced ▸ List.mem_map_of_mem hmember)
  · have hbytes := htiles.flatMap_slice hsize
    rw [← hplaced, List.flatMap_map, Span.slice_eq_take_drop (Nat.zero_le _) hsize] at hbytes
    exact hbytes
  · intro count hcount
    have hlength := congrArg List.length hplaced
    rw [List.length_map] at hlength
    unfold Scanned.result at hcount
    split at hcount
    · rename_i hnone
      cases hcount
      exact ⟨hlength.symm, hsucceeds hnone⟩
    · cases hcount
  · intro failure hfailure
    unfold Scanned.result at hfailure
    split at hfailure
    · cases hfailure
    · rename_i found hfound
      cases hfailure
      exact hfails failure hfound

end VersionedXml
