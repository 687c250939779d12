import VersionedXml.Proofs.Entity.Tiling

/-!
# Where entities stand

A tracker is asked for the ends of one entity after the other, and it walks on from the last answer or
begins again.  Either way its answers are those of counting from the beginning, so what an entity is
placed with depends on the input and on the entity alone, and not on the entities before it.
-/

namespace VersionedXml

namespace Position

theorem ofOffset_min_size (input : Buffer) (offset : Nat) :
    ofOffset input (min offset input.size) = ofOffset input offset := by
  unfold ofOffset
  rw [List.take_eq_take_iff.mpr]
  rw [Array.length_toList]
  omega

theorem ofOffset_append {input : Buffer} {offset : Nat} (hoffset : offset ≤ input.size)
    (more : Buffer) : ofOffset (input ++ more) offset = ofOffset input offset := by
  unfold ofOffset
  rw [Array.toList_append, List.take_append_of_le_length]
  rw [Array.length_toList]
  exact hoffset

end Position

namespace Tracker

@[simp]
theorem input_moveTo (tracker : Tracker) (offset : Nat) :
    (tracker.moveTo offset).input = tracker.input := by
  unfold moveTo
  split
  · rfl
  · rfl

theorem IsAccurate.here_moveTo {tracker : Tracker} (haccurate : tracker.IsAccurate)
    (offset : Nat) : (tracker.moveTo offset).here.position = min offset tracker.input.size := by
  obtain ⟨⟨hposition, hrest⟩, -⟩ := haccurate
  unfold Tracker.moveTo
  split
  · simp [Tracker.forward, start, Cursor.start]
  · rename_i hahead
    simp only [Tracker.forward, Cursor.position_advance, hrest, List.length_drop, Array.length_toList]
    omega

theorem IsAccurate.position_moveTo {tracker : Tracker} (haccurate : tracker.IsAccurate)
    (offset : Nat) : (tracker.moveTo offset).position = Position.ofOffset tracker.input offset := by
  rw [(haccurate.moveTo offset).position_eq, input_moveTo, haccurate.here_moveTo,
    Position.ofOffset_min_size]

end Tracker

namespace Entity

def placedIn (input : Buffer) (entity : Entity) : PlacedEntity :=
  ⟨entity, Position.ofOffset input entity.span.start, Position.ofOffset input entity.span.stop⟩

theorem placeFrom_eq {tracker : Tracker} (haccurate : tracker.IsAccurate) (entities : List Entity) :
    (placeFrom tracker entities).1 = entities.map (placedIn tracker.input) := by
  induction entities generalizing tracker with
  | nil => rfl
  | cons entity rest ih =>
      have hstart := haccurate.moveTo entity.span.start
      have hrest := ih (hstart.moveTo entity.span.stop)
      rw [Tracker.input_moveTo, Tracker.input_moveTo] at hrest
      simp only [placeFrom, place, placedIn, List.map_cons, haccurate.position_moveTo,
        hstart.position_moveTo, Tracker.input_moveTo, hrest]

theorem placeAll_eq_map (input : Buffer) (entities : List Entity) :
    placeAll input entities = entities.map (placedIn input) := by
  rw [placeAll_eq, placeFrom_eq (Tracker.isAccurate_start input)]
  rfl

theorem Tiles.le_of_mem {start stop : Nat} {entities : List Entity}
    (htiles : Tiles start entities stop) {entity : Entity} (hentity : entity ∈ entities) :
    entity.span.start ≤ entity.span.stop ∧ entity.span.stop ≤ stop := by
  induction entities generalizing start with
  | nil => cases hentity
  | cons first rest ih =>
      obtain ⟨hstart, hle, hrest⟩ := htiles
      rcases List.mem_cons.mp hentity with rfl | hlater
      · exact ⟨hstart ▸ hle, hrest.le⟩
      · exact ih hrest hlater

/-- Bytes behind an input do not change where the entities in it stand. -/
theorem map_placedIn_append {input : Buffer} {entities : List Entity}
    (hinside : ∀ entity ∈ entities,
      entity.span.start ≤ entity.span.stop ∧ entity.span.stop ≤ input.size) (more : Buffer) :
    entities.map (placedIn (input ++ more)) = entities.map (placedIn input) := by
  refine List.map_congr_left fun entity hentity => ?_
  obtain ⟨hordered, hstop⟩ := hinside entity hentity
  unfold placedIn
  rw [Position.ofOffset_append (Nat.le_trans hordered hstop), Position.ofOffset_append hstop]

end Entity

theorem scan_inside (maxAttributes : Nat) (input : Buffer) :
    ∀ entity ∈ (scan maxAttributes input).entities,
      entity.span.start ≤ entity.span.stop ∧ entity.span.stop ≤ input.size := by
  intro entity hentity
  obtain ⟨stop, hsize, htiles, -⟩ := scan_tiles maxAttributes input
  obtain ⟨hordered, hstop⟩ := htiles.le_of_mem hentity
  exact ⟨hordered, Nat.le_trans hstop hsize⟩

end VersionedXml
