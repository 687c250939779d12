import Mathlib.Data.List.Infix
import VersionedXml.Entity.Scan

/-!
# Runs of the scanner

A search finds the first occurrence and nothing else.  A run is followed from one state to the next
by what it emits between them, and pieces of a run are put together.
-/

namespace VersionedXml

namespace Bytes

theorem search?_append_of_notMem {b : UInt8} {before : Bytes} (hbefore : b ∉ before) (offset : Nat)
    (rest : Bytes) :
    search? [b] offset (before ++ rest) = search? [b] (offset + before.length) rest := by
  induction before generalizing offset with
  | nil => rfl
  | cons c before ih =>
      obtain ⟨hne, hnot⟩ := List.ne_and_not_mem_of_not_mem_cons hbefore
      have hbegins : ¬ [b].isPrefixOf (c :: (before ++ rest)) = true := by
        simpa [List.isPrefixOf] using hne
      rw [List.cons_append, search?, if_neg hbegins, ih hnot, List.length_cons, Nat.add_assoc,
        Nat.add_comm 1]

theorem notMem_of_search?_eq_none {b : UInt8} {hay : Bytes} {offset : Nat}
    (hnone : search? [b] offset hay = none) : b ∉ hay := by
  rw [search?_eq_none_iff, List.singleton_infix_iff] at hnone
  exact hnone

/-- A search finds an occurrence that no earlier one precedes. -/
theorem search?_eq_some {needle before after : Bytes}
    (hfirst : ∀ left right, left ++ right = before → right ≠ [] →
      ¬ needle <+: right ++ needle ++ after) (offset : Nat) :
    search? needle offset (before ++ needle ++ after) = some (offset + before.length) := by
  refine search?_eq_some_iff.mpr ⟨before.length, rfl, ?_, ?_, fun earlier hearlier => ?_⟩
  · simp only [List.length_append]
    omega
  · rw [List.append_assoc, List.drop_left]
    exact List.prefix_append needle after
  · rw [List.append_assoc, List.drop_append_of_le_length (Nat.le_of_lt hearlier), ← List.append_assoc]
    refine hfirst (before.take earlier) _ (List.take_append_drop _ _) ?_
    exact List.ne_nil_of_length_pos (by rw [List.length_drop]; omega)

/-- What a search finds is an occurrence, and none precedes it. -/
theorem exists_of_search?_eq_some {needle hay : Bytes} {offset found : Nat}
    (hfound : search? needle offset hay = some found) :
    ∃ before after, hay = before ++ needle ++ after ∧ found = offset + before.length ∧
      ∀ left right, left ++ right = before → right ≠ [] → ¬ needle <+: right ++ needle ++ after := by
  obtain ⟨count, rfl, hcount, ⟨after, hafter⟩, hfirst⟩ := search?_eq_some_iff.mp hfound
  have hhay : hay = hay.take count ++ needle ++ after := by
    rw [List.append_assoc, hafter, List.take_append_drop]
  have hlength : (hay.take count).length = count := List.length_take_of_le hcount
  refine ⟨hay.take count, after, hhay, by rw [hlength], fun left right hsplit hright => ?_⟩
  have hearlier : left.length < count := by
    rw [← hlength, ← hsplit, List.length_append]
    exact Nat.lt_add_of_pos_right (List.length_pos_iff.mpr hright)
  have hbehind : hay.drop left.length = right ++ needle ++ after := by
    rw [hhay, ← hsplit]
    simp only [List.append_assoc, List.drop_left]
  exact hbehind ▸ hfirst left.length hearlier

/-- What a search passes over does not hold what is searched for. -/
theorem exists_of_search?_eq_some_of_ne_nil {needle hay : Bytes} (hneedle : needle ≠ [])
    {offset found : Nat} (hfound : search? needle offset hay = some found) :
    ∃ before after, hay = before ++ (needle ++ after) ∧ found = offset + before.length ∧
      ¬ needle <:+: before := by
  obtain ⟨before, after, hhay, hoffset, hfirst⟩ := exists_of_search?_eq_some hfound
  refine ⟨before, after, by rw [hhay, List.append_assoc], hoffset, ?_⟩
  rintro ⟨left, right, hsplit⟩
  refine hfirst left (needle ++ right) (by rw [← hsplit, List.append_assoc]) ?_ ?_
  · exact List.append_ne_nil_of_left_ne_nil hneedle right
  · rw [List.append_assoc, List.append_assoc]
    exact List.prefix_append needle _

end Bytes

/-- A span denotes the bytes that stand between what precedes and what follows. -/
theorem Span.slice_eq_of_append {input : Buffer} {before inside after : Bytes} {start stop : Nat}
    (hinput : input.toList = before ++ (inside ++ after)) (hstart : start = before.length)
    (hstop : stop = before.length + inside.length) :
    (⟨start, stop⟩ : Span).slice input = inside := by
  have hsize : stop ≤ input.size := by
    rw [← Array.length_toList, hinput, hstop, List.length_append, List.length_append]
    omega
  rw [Span.slice_eq_take_drop (by simp [hstart, hstop]) hsize, hinput]
  simp [Span.length, hstart, hstop]

theorem Cursor.advance_append (before rest : Bytes) (position count : Nat) :
    (⟨position, before ++ rest⟩ : Cursor).advance (before.length + count) =
      (⟨position + before.length, rest⟩ : Cursor).advance count := by
  induction before generalizing position with
  | nil => simp
  | cons b before ih =>
      rw [List.length_cons, Nat.add_right_comm, List.cons_append, Cursor.advance, ih]
      congr 2
      omega

/-- What is found ahead, what stands before it, and the place where it stands. -/
theorem Cursor.exists_of_find? {here : Cursor} {needle : Bytes} (hneedle : needle ≠ []) {found : Nat}
    (hfound : here.find? needle = some found) :
    ∃ before after, here.rest = before ++ (needle ++ after) ∧
      found = here.position + before.length ∧ ¬ needle <:+: before ∧
      ∀ count, here.advance (found + count - here.position) =
        (⟨found, needle ++ after⟩ : Cursor).advance count := by
  obtain ⟨before, after, hrest, rfl, hbefore⟩ :=
    Bytes.exists_of_search?_eq_some_of_ne_nil hneedle hfound
  refine ⟨before, after, hrest, rfl, hbefore, fun count => ?_⟩
  obtain ⟨position, ahead⟩ := here
  cases hrest
  rw [Nat.add_assoc, Nat.add_sub_cancel_left]
  exact Cursor.advance_append before _ position count

namespace ScanState

variable {maxAttributes : Nat} {state next last : ScanState} {entities more : List Entity}

theorem run_of_rest_eq_nil (hrest : state.here.rest = []) (emitted : Array Entity) :
    state.run maxAttributes emitted = ⟨emitted.toList ++ state.finish, none⟩ := by
  rw [run]
  split
  · simp
  · rename_i hcons
    rw [hrest] at hcons
    cases hcons

/-- Until the end of the input a run makes one step after the other. -/
theorem run_of_step_eq_ok {b : UInt8} {rest : Bytes} {move : Move}
    (hrest : state.here.rest = b :: rest)
    (hstep : state.step maxAttributes b ⟨state.here.position + 1, rest⟩ = .ok move)
    (emitted : Array Entity) :
    state.run maxAttributes emitted = move.state.run maxAttributes (emitted ++ move.emitted) := by
  rw [run]
  split
  · rename_i hnil
    rw [hrest] at hnil
    cases hnil
  · rename_i c others hcons
    rw [hrest] at hcons
    cases hcons
    split
    · rename_i failure hfailure
      rw [hstep] at hfailure
      cases hfailure
    · rename_i made hmade
      rw [hstep] at hmade
      cases hmade
      rfl

theorem run_of_step_eq_error {b : UInt8} {rest : Bytes} {failure : ScanError}
    (hrest : state.here.rest = b :: rest)
    (hstep : state.step maxAttributes b ⟨state.here.position + 1, rest⟩ = .error failure)
    (emitted : Array Entity) :
    state.run maxAttributes emitted = ⟨emitted.toList, some failure⟩ := by
  rw [run]
  split
  · rename_i hnil
    rw [hrest] at hnil
    cases hnil
  · rename_i c others hcons
    rw [hrest] at hcons
    cases hcons
    split
    · rename_i found hfound
      rw [hstep] at hfound
      cases hfound
      rfl
    · rename_i made hmade
      rw [hstep] at hmade
      cases hmade

/-- What was emitted before a run stays before what the run emits. -/
theorem run_eq_append (emitted : Array Entity) (state : ScanState) :
    state.run maxAttributes emitted =
      ⟨emitted.toList ++ (state.run maxAttributes #[]).entities,
        (state.run maxAttributes #[]).failure⟩ := by
  generalize hremaining : state.remaining = remaining
  induction remaining using Nat.strongRecOn generalizing state emitted with
  | ind remaining ih =>
      cases hrest : state.here.rest with
      | nil => simp [run_of_rest_eq_nil hrest]
      | cons b rest =>
          cases hmove : state.step maxAttributes b ⟨state.here.position + 1, rest⟩ with
          | error failure => simp [run_of_step_eq_error hrest hmove]
          | ok move =>
              have hless := remaining_step_lt hrest hmove
              have hrun := fun before => ih _ (hremaining ▸ hless) before move.state rfl
              rw [run_of_step_eq_ok hrest hmove, run_of_step_eq_ok hrest hmove, hrun, hrun (#[] ++ _)]
              simp

inductive Ends (maxAttributes : Nat) (front : List Entity) (last : ScanState) : Scanned → Prop where
  | finished (hrest : last.here.rest = []) :
      Ends maxAttributes front last ⟨front ++ last.finish, none⟩
  | failed {b : UInt8} {rest : Bytes} {failure : ScanError} (hrest : last.here.rest = b :: rest)
      (hstep : last.step maxAttributes b ⟨last.here.position + 1, rest⟩ = .error failure) :
      Ends maxAttributes front last ⟨front, some failure⟩

/-- What every step keeps holds of the last state of a run. -/
theorem run_induction {invariant : List Entity → ScanState → Prop}
    (hstep : ∀ {front : List Entity} {state : ScanState} {b : UInt8} {rest : Bytes} {move : Move},
      invariant front state → state.here.rest = b :: rest →
      state.step maxAttributes b ⟨state.here.position + 1, rest⟩ = .ok move →
      invariant (front ++ move.emitted) move.state)
    (emitted : Array Entity) (hinvariant : invariant emitted.toList state) :
    ∃ front last, invariant front last ∧
      Ends maxAttributes front last (state.run maxAttributes emitted) := by
  generalize hremaining : state.remaining = remaining
  induction remaining using Nat.strongRecOn generalizing state emitted with
  | ind remaining ih =>
      cases hrest : state.here.rest with
      | nil =>
          rw [run_of_rest_eq_nil hrest]
          exact ⟨_, state, hinvariant, .finished hrest⟩
      | cons b rest =>
          cases hmove : state.step maxAttributes b ⟨state.here.position + 1, rest⟩ with
          | error failure =>
              rw [run_of_step_eq_error hrest hmove]
              exact ⟨_, state, hinvariant, .failed hrest hmove⟩
          | ok move =>
              have hless := remaining_step_lt hrest hmove
              rw [run_of_step_eq_ok hrest hmove]
              refine ih move.state.remaining (hremaining ▸ hless) _ ?_ rfl
              simpa using hstep hinvariant hrest hmove

/-- A run that comes to the first state goes on from the second one, and emits the entities between
them. -/
def Leads (maxAttributes : Nat) (state : ScanState) (entities : List Entity)
    (next : ScanState) : Prop :=
  ∀ emitted : Array Entity,
    state.run maxAttributes emitted = next.run maxAttributes (emitted ++ entities)

namespace Leads

theorem refl (state : ScanState) : Leads maxAttributes state [] state := by
  intro emitted
  simp

theorem trans (hfirst : Leads maxAttributes state entities next)
    (hsecond : Leads maxAttributes next more last) :
    Leads maxAttributes state (entities ++ more) last := by
  intro emitted
  rw [hfirst, hsecond]
  congr 1
  apply Array.ext'
  simp

theorem silent_trans (hfirst : Leads maxAttributes state [] next)
    (hsecond : Leads maxAttributes next more last) : Leads maxAttributes state more last :=
  hfirst.trans hsecond

theorem of_step {b : UInt8} {position : Nat} {rest : Bytes} {mode : Mode} {move : Move}
    (hstep : step maxAttributes ⟨mode, ⟨position, b :: rest⟩⟩ b ⟨position + 1, rest⟩ = .ok move) :
    Leads maxAttributes ⟨mode, ⟨position, b :: rest⟩⟩ move.emitted move.state :=
  fun emitted => run_of_step_eq_ok rfl hstep emitted

theorem of_silent_step {b : UInt8} {position : Nat} {rest : Bytes} {mode other : Mode}
    {here : Cursor}
    (hstep : step maxAttributes ⟨mode, ⟨position, b :: rest⟩⟩ b ⟨position + 1, rest⟩ =
      .ok (.silent other here)) :
    Leads maxAttributes ⟨mode, ⟨position, b :: rest⟩⟩ [] ⟨other, here⟩ :=
  of_step hstep

theorem of_same_step {b c : UInt8} {here there : Nat} {rest others : Bytes} {mode other : Mode}
    {move : Move}
    (hstep : step maxAttributes ⟨mode, ⟨here, b :: rest⟩⟩ b ⟨here + 1, rest⟩ = .ok move)
    (hother : step maxAttributes ⟨other, ⟨there, c :: others⟩⟩ c ⟨there + 1, others⟩ = .ok move) :
    Leads maxAttributes ⟨mode, ⟨here, b :: rest⟩⟩ [] ⟨other, ⟨there, c :: others⟩⟩ := by
  intro emitted
  rw [of_step hstep emitted, of_step hother]
  simp

end Leads

/-- In character data a step depends on what comes from the next `<` on. -/
theorem stepText_append {text : Bytes} (htext : Byte.less ∉ text) (start position : Nat)
    (rest : Bytes) :
    stepText start ⟨position, text ++ rest⟩ = stepText start ⟨position + text.length, rest⟩ := by
  have hsearch : (⟨position, text ++ rest⟩ : Cursor).find? [Byte.less] =
      (⟨position + text.length, rest⟩ : Cursor).find? [Byte.less] :=
    Bytes.search?_append_of_notMem htext position rest
  unfold stepText
  rw [hsearch]
  cases hfound : (⟨position + text.length, rest⟩ : Cursor).find? [Byte.less] with
  | none =>
      have hend : (⟨position, text ++ rest⟩ : Cursor).toEnd =
          (⟨position + text.length, rest⟩ : Cursor).toEnd := by
        simp [Cursor.toEnd, Nat.add_assoc]
      dsimp only
      rw [hend]
  | some less =>
      have hle : position + text.length ≤ less := Bytes.le_of_search? hfound
      have hcount : less - position = text.length + (less - (position + text.length)) := by omega
      dsimp only
      rw [hcount, Cursor.advance_append]

/-- In character data the scanner passes over everything but `<`. -/
theorem leads_text {text : Bytes} (htext : Byte.less ∉ text) (start position : Nat)
    (rest : Bytes) :
    Leads maxAttributes ⟨.text start, ⟨position, text ++ rest⟩⟩ []
      ⟨.text start, ⟨position + text.length, rest⟩⟩ := by
  have hstep : ∀ here : Cursor, ∀ b next,
      step maxAttributes ⟨.text start, here⟩ b next = .ok (stepText start here) :=
    fun here b next => rfl
  have hskip := stepText_append htext start position rest
  cases text with
  | nil => exact Leads.refl _
  | cons b text =>
      have hfirst := (hstep ⟨position, b :: (text ++ rest)⟩ b ⟨position + 1, text ++ rest⟩).trans
        (congrArg Except.ok hskip)
      cases rest with
      | nil => exact Leads.of_step hfirst
      | cons c rest => exact Leads.of_same_step hfirst (hstep _ _ _)

end ScanState

end VersionedXml
