import VersionedXml.Proofs.Entity.Overfull

/-!
# Scanning comes to an end

The cursor of a scanner stays in its input, and every step that does not fail lowers a bound: two
for each byte ahead of the cursor, and one more in every mode but the one between attributes.  The
modes that hand over to that one may leave the cursor where it is.  So an input is scanned in at most
twice as many steps as it has bytes, and one more, whatever its bytes are.
-/

namespace VersionedXml.ScanState

variable {maxAttributes count : Nat} {input : Buffer} {front : List Entity} {state : ScanState}

/-- The bound on the steps that are left, in terms of the place of the cursor. -/
theorem Valid.remaining_eq (hvalid : state.Valid maxAttributes input) :
    state.remaining = 2 * (input.size - state.here.position) + state.mode.weight := by
  have hlength := hvalid.isIn.position_add_length
  unfold remaining
  omega

/-- Scanning an input comes to a state after so many steps, and has emitted `front` there. -/
inductive Iterated (maxAttributes : Nat) (input : Buffer) :
    Nat → List Entity → ScanState → Prop where
  | start : Iterated maxAttributes input 0 [] (.start input)
  | step {count : Nat} {front : List Entity} {state : ScanState} {b : UInt8} {rest : Bytes}
      {move : Move} (hiterated : Iterated maxAttributes input count front state)
      (hrest : state.here.rest = b :: rest)
      (hstep : state.step maxAttributes b ⟨state.here.position + 1, rest⟩ = .ok move) :
      Iterated maxAttributes input (count + 1) (front ++ move.emitted) move.state

theorem Iterated.count_add_remaining_le
    (hiterated : Iterated maxAttributes input count front state) :
    count + state.remaining ≤ 2 * input.size + 1 := by
  induction hiterated with
  | start => simp [remaining, ScanState.start, Cursor.start, Mode.weight]
  | step _ hrest hstep ih =>
      have hless := remaining_step_lt hrest hstep
      omega

/-- After finitely many steps a scan is at the end of its input, or a step fails. -/
theorem exists_iterated (maxAttributes : Nat) (input : Buffer) :
    ∃ count front last, Iterated maxAttributes input count front last ∧
      Ends maxAttributes front last (scan maxAttributes input) := by
  suffices hrun : ∃ front last, (∃ count, Iterated maxAttributes input count front last) ∧
      Ends maxAttributes front last (scan maxAttributes input) by
    obtain ⟨front, last, ⟨count, hiterated⟩, hends⟩ := hrun
    exact ⟨count, front, last, hiterated, hends⟩
  refine run_induction ?_ #[] ⟨0, .start⟩
  rintro front state b rest move ⟨count, hiterated⟩ hrest hstep
  exact ⟨count + 1, hiterated.step hrest hstep⟩

theorem Iterated.reached (hiterated : Iterated maxAttributes input count front state) :
    Reached maxAttributes input state := by
  induction hiterated with
  | start => exact .start
  | step _ hrest hstep ih => exact .step ih hrest hstep

/-- Scanning stays in the input and comes to an end.  In every state that it comes to, the bytes
ahead are those of the input behind the cursor, and a step that does not fail lowers the bound.  So it
comes to no state by more steps than twice the bytes of the input, and one, and one of these states
is the last: there no byte is ahead, or the next step fails. -/
theorem scan_terminates (limits : Limits) (input : Buffer) :
    (∀ count front state, Iterated limits.maxAttributes input count front state →
      count ≤ 2 * input.size + 1 ∧
      state.here.position ≤ input.size ∧
      state.here.rest = input.toList.drop state.here.position ∧
      ∀ b rest move, state.here.rest = b :: rest →
        state.step limits.maxAttributes b ⟨state.here.position + 1, rest⟩ = .ok move →
        2 * (input.size - move.state.here.position) + move.state.mode.weight <
          2 * (input.size - state.here.position) + state.mode.weight) ∧
    ∃ count front last, Iterated limits.maxAttributes input count front last ∧
      Ends limits.maxAttributes front last (scan limits.maxAttributes input) := by
  refine ⟨?_, exists_iterated limits.maxAttributes input⟩
  intro count front state hiterated
  have hvalid := hiterated.reached.valid
  have hcount := hiterated.count_add_remaining_le
  refine ⟨by omega, hvalid.isIn.1, hvalid.isIn.2, ?_⟩
  intro b rest move hrest hstep
  have hnext := (keeps_step hvalid hrest hstep).valid
  rw [← hvalid.remaining_eq, ← hnext.remaining_eq]
  exact remaining_step_lt hrest hstep

/-- The input `<a b>`. -/
def bareName : Buffer := #[0x3c, 0x61, 0x20, 0x62, 0x3e]

/-- At the `>` behind the name `b` the scanner hands over to the mode between attributes, and the
cursor stays where it is. -/
theorem scan_terminates_bareName :
    ∃ front state move, Iterated 4096 bareName 4 front state ∧ state.here.rest = [0x3e] ∧
      state.step 4096 0x3e ⟨5, []⟩ = .ok move ∧ move.state.here = state.here ∧
      2 * (5 - move.state.here.position) + move.state.mode.weight <
        2 * (5 - state.here.position) + state.mode.weight := by
  let head : TagHead := ⟨0, false⟩
  let tag : Tag := ⟨head, ⟨1, 2⟩, #[]⟩
  have hopen : step 4096 (.start bareName) 0x3c ⟨1, [0x61, 0x20, 0x62, 0x3e]⟩ =
      .ok (.silent (.tagName head) ⟨1, [0x61, 0x20, 0x62, 0x3e]⟩) := rfl
  have hname : step 4096 ⟨.tagName head, ⟨1, [0x61, 0x20, 0x62, 0x3e]⟩⟩ 0x61
      ⟨2, [0x20, 0x62, 0x3e]⟩ = .ok (.silent (.tagName head) ⟨2, [0x20, 0x62, 0x3e]⟩) := rfl
  have hspace : step 4096 ⟨.tagName head, ⟨2, [0x20, 0x62, 0x3e]⟩⟩ 0x20 ⟨3, [0x62, 0x3e]⟩ =
      .ok (.silent (.tag tag) ⟨3, [0x62, 0x3e]⟩) := rfl
  have hattribute : step 4096 ⟨.tag tag, ⟨3, [0x62, 0x3e]⟩⟩ 0x62 ⟨4, [0x3e]⟩ =
      .ok (.silent (.attributeName tag 3) ⟨4, [0x3e]⟩) := rfl
  have hstate : Iterated 4096 bareName 4 [] ⟨.attributeName tag 3, ⟨4, [0x3e]⟩⟩ :=
    .step (.step (.step (.step .start rfl hopen) rfl hname) rfl hspace) rfl hattribute
  obtain ⟨-, -, -, hless⟩ := (scan_terminates {} bareName).1 _ _ _ hstate
  exact ⟨_, _, _, hstate, rfl, rfl, rfl, hless _ _ _ rfl rfl⟩

end VersionedXml.ScanState
