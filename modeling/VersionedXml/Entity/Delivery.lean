import VersionedXml.Entity.Scan

/-!
# Scanning into a sink

Entities are handed to a sink one by one, as soon as they are complete, each with the positions of
its two ends.  What is handed over is counted on the way.
-/

namespace VersionedXml

/-- The sink behind the entities handed over so far, the place up to which positions are known, and
the number of these entities. -/
structure Delivery (σ : Type) where
  sink : σ
  tracker : Tracker
  count : Nat

namespace Delivery

variable {σ : Type}

def start (sink : σ) (input : Buffer) : Delivery σ := ⟨sink, Tracker.start input, 0⟩

def hand (receive : σ → PlacedEntity → σ) (delivery : Delivery σ) (entity : Entity) :
    Delivery σ :=
  let placed := entity.place delivery.tracker
  ⟨receive delivery.sink placed.1, placed.2, delivery.count + 1⟩

/-- Hands over entities one after the other. -/
def handAll (receive : σ → PlacedEntity → σ) (delivery : Delivery σ) (entities : List Entity) :
    Delivery σ :=
  entities.foldl (hand receive) delivery

end Delivery

def ScanState.deliver {σ : Type} (maxAttributes : Nat) (receive : σ → PlacedEntity → σ)
    (delivery : Delivery σ) (state : ScanState) : Delivery σ × Option ScanError :=
  match hrest : state.here.rest with
  | [] => (delivery.handAll receive state.finish, none)
  | b :: rest =>
      match hstep : state.step maxAttributes b ⟨state.here.position + 1, rest⟩ with
      | .error failure => (delivery, some failure)
      | .ok move =>
          have := remaining_step_lt hrest hstep
          deliver maxAttributes receive (delivery.handAll receive move.emitted) move.state
  termination_by state.remaining

/-- Scans an input into a sink.  The result is the sink behind all entities, and the number of the
entities or the failure that ended the scan. -/
def scanInto {σ : Type} (maxAttributes : Nat) (receive : σ → PlacedEntity → σ) (sink : σ)
    (input : Buffer) : σ × Except ScanError Nat :=
  let delivered := (ScanState.start input).deliver maxAttributes receive (.start sink input)
  (delivered.1.sink,
    match delivered.2 with
    | none => .ok delivered.1.count
    | some failure => .error failure)

end VersionedXml
