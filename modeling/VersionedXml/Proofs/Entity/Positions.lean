import Mathlib.Data.List.Chain
import Mathlib.Data.List.DropRight
import VersionedXml.Proofs.Entity.Extension

/-!
# Lines and columns are exact

A position is told by the bytes before it: the line by the line feeds among them, the column by the
characters behind the last of these.  A tracker gives this answer to every request, in whatever order
the requests come.  Scanning asks it for offsets that never decrease, since entities lie side by side.
-/

namespace VersionedXml

namespace Position

/-- The position is that of the place behind some bytes.  Its line counts the line feeds among them, and
its column the bytes behind the last line feed that begin a character. -/
structure IsBehind (position : Position) (bytes : Bytes) : Prop where
  line : position.line.toNat = 1 + bytes.count Byte.lineFeed
  column : position.column.toNat =
    1 + (bytes.rtakeWhile (· != Byte.lineFeed)).countP (!Byte.isContinuation ·)

theorem isBehind_first : first.IsBehind [] := ⟨rfl, rfl⟩

theorem IsBehind.toNat_le {position : Position} {bytes : Bytes} (hbehind : position.IsBehind bytes) :
    position.line.toNat ≤ 1 + bytes.length ∧ position.column.toNat ≤ 1 + bytes.length := by
  have hline := bytes.count_le_length (a := Byte.lineFeed)
  have hcolumn := (bytes.rtakeWhile_suffix (· != Byte.lineFeed)).length_le
  have hcount := (bytes.rtakeWhile (· != Byte.lineFeed)).countP_le_length (p := (!Byte.isContinuation ·))
  rw [hbehind.line, hbehind.column]
  omega

/-- One more byte is counted as long as 32 bits suffice. -/
theorem IsBehind.next {position : Position} {bytes : Bytes} (hbehind : position.IsBehind bytes)
    (hlength : bytes.length + 1 < 2 ^ 32 - 1) (b : UInt8) :
    (position.next b).IsBehind (bytes ++ [b]) := by
  have hone : ∀ counted : UInt32, counted.toNat ≤ 1 + bytes.length →
      (counted + 1).toNat = counted.toNat + 1 := by
    intro counted hle
    rw [UInt32.toNat_add]
    exact Nat.mod_eq_of_lt (by simp only [UInt32.reduceToNat]; omega)
  obtain ⟨hline, hcolumn⟩ := hbehind.toNat_le
  unfold Position.next
  split
  · rename_i hfeed
    cases eq_of_beq hfeed
    refine ⟨?_, ?_⟩
    · rw [hone _ hline, hbehind.line, List.count_append]
      rfl
    · rw [List.rtakeWhile_concat_neg _ _ _ (by simp)]
      rfl
  · rename_i hother
    have hcount : (bytes ++ [b]).count Byte.lineFeed = bytes.count Byte.lineFeed := by
      rw [List.count_append, List.count_singleton]
      simp_all
    have hcurrent : (bytes ++ [b]).rtakeWhile (· != Byte.lineFeed) =
        bytes.rtakeWhile (· != Byte.lineFeed) ++ [b] :=
      List.rtakeWhile_concat_pos _ _ _ (by simp_all)
    split
    · rename_i hcontinues
      have hnone : [b].countP (!Byte.isContinuation ·) = 0 := by simp [hcontinues]
      refine ⟨by rw [hcount, hbehind.line], ?_⟩
      rw [hcurrent, List.countP_append, hnone, Nat.add_zero, hbehind.column]
    · rename_i hbegins
      have hcharacter : [b].countP (!Byte.isContinuation ·) = 1 := by simp [hbegins]
      refine ⟨by rw [hcount, hbehind.line], ?_⟩
      rw [hcurrent, List.countP_append, hcharacter, hone _ hcolumn, hbehind.column, Nat.add_assoc]

theorem isBehind_after {bytes : Bytes} (hlength : bytes.length < 2 ^ 32 - 1) :
    (first.after bytes).IsBehind bytes := by
  induction bytes using List.reverseRecOn with
  | nil => exact isBehind_first
  | append_singleton bytes b ih =>
      rw [List.length_append] at hlength
      rw [after_append]
      exact (ih (Nat.lt_of_succ_lt hlength)).next hlength b

theorem isBehind_ofOffset {input : Buffer} (hsize : input.size < 2 ^ 32 - 1) (offset : Nat) :
    (ofOffset input offset).IsBehind (input.toList.take (min offset input.size)) := by
  rw [← ofOffset_min_size]
  refine isBehind_after (Nat.lt_of_le_of_lt ?_ hsize)
  exact List.length_take_le' _ _

end Position

namespace Tracker

def answers (tracker : Tracker) : List Nat → List Position
  | [] => []
  | offset :: rest => (tracker.moveTo offset).position :: (tracker.moveTo offset).answers rest

/-- Whatever was asked before, a request is answered by counting from the beginning. -/
theorem IsAccurate.answers_eq {tracker : Tracker} (haccurate : tracker.IsAccurate)
    (requests : List Nat) :
    tracker.answers requests = requests.map (Position.ofOffset tracker.input) := by
  induction requests generalizing tracker with
  | nil => rfl
  | cons offset rest ih =>
      rw [answers, haccurate.position_moveTo, ih (haccurate.moveTo offset), input_moveTo]
      rfl

/-- Each request is answered by walking on from where the one before it led, and never from the
beginning. -/
def WalksOn (tracker : Tracker) : List Nat → Prop
  | [] => True
  | offset :: rest =>
      tracker.moveTo offset = tracker.forward offset ∧ (tracker.moveTo offset).WalksOn rest

theorem IsAccurate.moveTo_eq_forward {tracker : Tracker} (haccurate : tracker.IsAccurate)
    {offset : Nat} (hahead : tracker.here.position ≤ offset) :
    tracker.moveTo offset = tracker.forward offset := by
  have hinside : tracker.here.position ≤ tracker.input.size := haccurate.here_isIn.1
  exact if_neg (Nat.not_lt.mpr (Nat.le_min.mpr ⟨hahead, hinside⟩))

/-- Requests that never decrease never lead back to the beginning. -/
theorem IsAccurate.walksOn {tracker : Tracker} (haccurate : tracker.IsAccurate)
    {requests : List Nat} (hsorted : requests.Pairwise (· ≤ ·))
    (hahead : ∀ offset ∈ requests, tracker.here.position ≤ offset) : tracker.WalksOn requests := by
  induction requests generalizing tracker with
  | nil => trivial
  | cons offset rest ih =>
      obtain ⟨hlater, hrest⟩ := List.pairwise_cons.mp hsorted
      refine ⟨haccurate.moveTo_eq_forward (hahead offset List.mem_cons_self),
        ih (haccurate.moveTo offset) hrest fun other hother => ?_⟩
      rw [haccurate.here_moveTo]
      exact Nat.le_trans (Nat.min_le_left _ _) (hlater other hother)

end Tracker

namespace Entity

def ends (entities : List Entity) : List Nat :=
  entities.flatMap fun entity => [entity.span.start, entity.span.stop]

theorem flatMap_placeFrom (tracker : Tracker) (entities : List Entity) :
    ((placeFrom tracker entities).1.flatMap fun placed => [placed.start, placed.stop]) =
      tracker.answers (ends entities) := by
  induction entities generalizing tracker with
  | nil => rfl
  | cons entity rest ih =>
      simp only [placeFrom, List.flatMap_cons, ih]
      rfl

/-- The ends of entities side by side never decrease. -/
theorem Tiles.pairwise_ends {start stop : Nat} {entities : List Entity}
    (htiles : Tiles start entities stop) :
    (ends entities).Pairwise (· ≤ ·) ∧ ∀ offset ∈ ends entities, start ≤ offset := by
  induction entities generalizing start with
  | nil => exact ⟨.nil, nofun⟩
  | cons entity rest ih =>
      obtain ⟨rfl, hle, hrest⟩ := htiles
      obtain ⟨hpairwise, hbounds⟩ := ih hrest
      have hlater : ∀ offset ∈ entity.span.stop :: ends rest, entity.span.stop ≤ offset :=
        List.forall_mem_cons.mpr ⟨Nat.le_refl _, hbounds⟩
      have hbeyond : ∀ offset ∈ entity.span.stop :: ends rest, entity.span.start ≤ offset :=
        fun offset hoffset => Nat.le_trans hle (hlater offset hoffset)
      refine ⟨?_, List.forall_mem_cons.mpr ⟨Nat.le_refl _, hbeyond⟩⟩
      exact .cons hbeyond (.cons hbounds hpairwise)

/-- Each of some entities side by side begins where the one before it ends. -/
theorem Tiles.isChain {start stop : Nat} {entities : List Entity}
    (htiles : Tiles start entities stop) :
    entities.IsChain fun before after => before.span.stop = after.span.start := by
  induction entities generalizing start with
  | nil => exact .nil
  | cons entity rest ih =>
      obtain ⟨-, -, hrest⟩ := htiles
      cases rest with
      | nil => exact .singleton _
      | cons next rest => exact .cons_cons hrest.1.symm (ih hrest)

end Entity

theorem handed_eq_placeFrom (maxAttributes : Nat) (input : Buffer) :
    handed maxAttributes input =
      (Entity.placeFrom (Tracker.start input) (scan maxAttributes input).entities).1 := by
  rw [handed_eq_map, ← Entity.placeAll_eq_map, Entity.placeAll_eq]

/-- The entities handed over stand where the lines and characters before their ends say. -/
theorem isBehind_of_mem_handed {maxAttributes : Nat} {input : Buffer} (hsize : input.size < 2 ^ 32 - 1)
    {placed : PlacedEntity} (hplaced : placed ∈ handed maxAttributes input) :
    placed.start.IsBehind (input.toList.take placed.entity.span.start) ∧
      placed.stop.IsBehind (input.toList.take placed.entity.span.stop) := by
  rw [handed_eq_map] at hplaced
  obtain ⟨entity, hentity, rfl⟩ := List.mem_map.mp hplaced
  obtain ⟨hordered, hstop⟩ := scan_inside maxAttributes input entity hentity
  have hstart := Position.isBehind_ofOffset hsize entity.span.start
  have hend := Position.isBehind_ofOffset hsize entity.span.stop
  rw [Nat.min_eq_left (Nat.le_trans hordered hstop)] at hstart
  rw [Nat.min_eq_left hstop] at hend
  exact ⟨hstart, hend⟩

/-- Positions are exact in every input that 32 bits can count.  Whatever a tracker is asked for, and in
whatever order, each answer counts the lines and the characters before the offset, or before the end if
the offset lies past it.  So do the positions of every entity that is handed over, and an entity stands
where the one before it ends.  They are the answers of one tracker to the ends of the entities, which
never decrease, so that it only walks on. -/
theorem positions_exact (limits : Limits) {input : Buffer} (hsize : input.size < 2 ^ 32 - 1) :
    (∀ requests : List Nat, List.Forall₂
      (fun offset position => position.IsBehind (input.toList.take (min offset input.size)))
      requests ((Tracker.start input).answers requests)) ∧
    (∀ placed ∈ handed limits.maxAttributes input,
      placed.start.IsBehind (input.toList.take placed.entity.span.start) ∧
      placed.stop.IsBehind (input.toList.take placed.entity.span.stop)) ∧
    (handed limits.maxAttributes input).IsChain (fun before after =>
      before.entity.span.stop = after.entity.span.start ∧ before.stop = after.start) ∧
    ∃ asked : List Nat,
      asked = (handed limits.maxAttributes input).flatMap
        (fun placed => [placed.entity.span.start, placed.entity.span.stop]) ∧
      asked.Pairwise (· ≤ ·) ∧ (Tracker.start input).WalksOn asked ∧
      (Tracker.start input).answers asked =
        (handed limits.maxAttributes input).flatMap fun placed => [placed.start, placed.stop] := by
  obtain ⟨stop, -, htiles, -⟩ := scan_tiles limits.maxAttributes input
  obtain ⟨hsorted, hahead⟩ := htiles.pairwise_ends
  refine ⟨fun requests => ?_, fun placed => isBehind_of_mem_handed hsize, ?_,
    Entity.ends (scan limits.maxAttributes input).entities, ?_, hsorted,
    (Tracker.isAccurate_start input).walksOn hsorted hahead, ?_⟩
  · rw [(Tracker.isAccurate_start input).answers_eq, List.forall₂_map_right_iff]
    exact List.forall₂_same.mpr fun offset _ => Position.isBehind_ofOffset hsize offset
  · rw [handed_eq_map, List.isChain_map]
    refine htiles.isChain.imp fun before after hmeet => ⟨hmeet, ?_⟩
    exact congrArg (Position.ofOffset input) hmeet
  · rw [handed_eq_map, List.flatMap_map]
    rfl
  · rw [handed_eq_placeFrom, Entity.flatMap_placeFrom]

/-- The input `a`, line feed, `é<b>`, and a byte that continues no character. -/
def lineOfTwoBytes : Buffer := #[0x61, 0x0a, 0xc3, 0xa9, 0x3c, 0x62, 0x3e, 0x80]

theorem positions_exact_lineOfTwoBytes :
    lineOfTwoBytes.size < 2 ^ 32 - 1 ∧
      (Tracker.start lineOfTwoBytes).answers [4, 1, 99, 8] = [⟨2, 2⟩, ⟨1, 2⟩, ⟨2, 5⟩, ⟨2, 5⟩] ∧
      (Position.mk 2 2).IsBehind (lineOfTwoBytes.toList.take 4) := by
  have hsize : lineOfTwoBytes.size < 2 ^ 32 - 1 := by decide
  have hanswers : (Tracker.start lineOfTwoBytes).answers [4, 1, 99, 8] =
      [⟨2, 2⟩, ⟨1, 2⟩, ⟨2, 5⟩, ⟨2, 5⟩] := by decide +kernel
  refine ⟨hsize, hanswers, ?_⟩
  obtain ⟨hrequests, -⟩ := positions_exact {} hsize
  have hfour := hrequests [4, 1, 99, 8]
  rw [hanswers] at hfour
  exact (List.forall₂_cons.mp hfour).1

end VersionedXml
