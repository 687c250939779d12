import VersionedXml.Proofs.Store.Identity
import VersionedXml.Proofs.Store.Refusals

/-!
# References of a batch

Nodes are numbered twice: a batch counts the nodes that it will create while it is being written, and
a store lists the nodes that it has created while the batch is applied to it.  Setting an attribute
may add a node that neither of them counts.  The two numberings agree, so what a call returns denotes
the node that the call has asked for.
-/

namespace VersionedXml

/-! ## Writing a batch -/

namespace Batch

inductive Call where
  | push (edit : Edit)
  | create (seed : Seed)
  | insert (place : Place) (parent child : Target)
  | remove (parent child : Target)
  | setAttribute (element : Target) (name value : Bytes)
  | unsetAttribute (element : Target) (name : Bytes)
  deriving DecidableEq, Repr

def Call.edit : Call → Edit
  | push edit => edit
  | create seed => .create seed
  | insert place parent child => .insert place parent child
  | remove parent child => .remove parent child
  | setAttribute element name value => .setAttribute element name value
  | unsetAttribute element name => .unsetAttribute element name

def call (batch : Batch) : Call → Batch × Option Target
  | .push edit => batch.push edit
  | .create seed =>
      let created := batch.create seed
      (created.1, some created.2)
  | .insert place parent child => (batch.insert place parent child, none)
  | .remove parent child => (batch.remove parent child, none)
  | .setAttribute element name value => (batch.setAttribute element name value, none)
  | .unsetAttribute element name => (batch.unsetAttribute element name, none)

def record (batch : Batch) : List Call → Batch × List (Option Target)
  | [] => (batch, [])
  | call :: rest =>
      let called := batch.call call
      let recorded := called.1.record rest
      (recorded.1, called.2 :: recorded.2)

theorem call_eq_push (batch : Batch) (call : Call) : batch.call call = batch.push call.edit := by
  cases call <;> rfl

theorem record_push (batch : Batch) (calls : List Call) :
    batch.record (calls.map fun call => .push call.edit) = batch.record calls := by
  induction calls generalizing batch with
  | nil => rfl
  | cons call rest ih =>
      have hcall : batch.call (.push call.edit) = batch.call call := (call_eq_push batch call).symm
      rw [List.map_cons, record, record, hcall, ih]

theorem edits_call (batch : Batch) (call : Call) :
    (batch.call call).1.edits = batch.edits ++ [call.edit] := by
  rw [call_eq_push, push]
  split <;> exact List.reverse_cons

theorem edits_record (batch : Batch) (calls : List Call) :
    (batch.record calls).1.edits = batch.edits ++ calls.map Call.edit := by
  induction calls generalizing batch with
  | nil => exact (List.append_nil _).symm
  | cons call rest ih =>
      rw [record, ih, edits_call, List.append_assoc]
      rfl

theorem created_call (batch : Batch) (call : Call) :
    (batch.call call).1.created = batch.created + if call.edit.isCreation then 1 else 0 := by
  rw [call_eq_push, push]
  split <;> rfl

theorem created_record (batch : Batch) (calls : List Call) :
    (batch.record calls).1.created =
      batch.created + (calls.map Call.edit).countP Edit.isCreation := by
  induction calls generalizing batch with
  | nil => rfl
  | cons call rest ih =>
      rw [record, ih, created_call, List.map_cons, List.countP_cons, Nat.add_assoc,
        Nat.add_comm (List.countP _ _)]

/-- References are numbered in the order in which they are handed out. -/
theorem references_record (batch : Batch) (calls : List Call) :
    (batch.record calls).2.reduceOption =
      (List.range' batch.created ((calls.map Call.edit).countP Edit.isCreation)).map
        Target.created := by
  induction calls generalizing batch with
  | nil => rfl
  | cons call rest ih =>
      have hanswer : (batch.call call).2 =
          if call.edit.isCreation then some (.created batch.created) else none := by
        rw [call_eq_push, push]
        split <;> rfl
      have hrest := ih (batch.call call).1
      rw [created_call] at hrest
      rw [record, List.map_cons, List.countP_cons, hanswer]
      split
      · rename_i hcreation
        rw [if_pos hcreation] at hrest
        rw [List.reduceOption_cons_of_some, hrest, List.range'_succ, List.map_cons]
      · rename_i hother
        rw [if_neg hother] at hrest
        rw [List.reduceOption_cons_of_none, hrest]
        rfl

end Batch

namespace Store

/-! ## Nodes that are what their seeds say -/

/-- The node is of the kind of the seed, and it has the strings of the seed. -/
def Realizes (store : Store) (id : NodeId) : Seed → Prop
  | .document => store.kind? id = some .document
  | .element name => store.kind? id = some .element ∧ store.name? id = some name
  | .attribute name value =>
      store.kind? id = some .attribute ∧ store.name? id = some name ∧ store.value? id = some value
  | .leaf kind content => store.kind? id = some (.leaf kind) ∧ store.content? id = some content

variable {store next : Store}

theorem realizes_planted (hstore : store.Sound) (seed : Seed)
    (hroom : store.nodeCount + 1 ≤ store.limits.maxNodes)
    (hsmall : (seed.plant store.pool).1.bytesUsed < UInt32.size) :
    (store.planted seed).Realizes store.table.freshId seed := by
  have hkind := kind?_planted hroom seed
  match seed with
  | .document => exact hkind
  | .element name => exact ⟨hkind, name?_planted hstore hroom hsmall⟩
  | .attribute name value => exact ⟨hkind, pair?_iff.mp (pair?_planted hstore hroom hsmall)⟩
  | .leaf kind content => exact ⟨hkind, content?_planted hstore hroom hsmall⟩

/-- It stays so whatever follows.  An attribute that stands nowhere is not put on an element any more,
and its value could only be set through an element. -/
theorem Realizes.of_foldlM_apply {edits : List Edit} (hstore : store.Sound)
    (hnext : edits.foldlM apply store = .ok next) (hsmall : next.pool.bytesUsed < UInt32.size)
    {id : NodeId} {seed : Seed} (hrealizes : store.Realizes id seed)
    (hdetached : store.parent? id = none) : next.Realizes id seed := by
  have hcontinues := Continues.of_foldlM_apply hstore hnext hsmall
  match seed, hrealizes with
  | .document, hkind => exact (hcontinues.kind? id (contains_of_kind? hkind)).trans hkind
  | .element name, ⟨hkind, hname⟩ =>
      have hid := contains_of_kind? hkind
      exact ⟨(hcontinues.kind? id hid).trans hkind, (hcontinues.name? id hid).trans hname⟩
  | .attribute name value, ⟨hkind, hname, hvalue⟩ =>
      have hid := contains_of_kind? hkind
      refine ⟨(hcontinues.kind? id hid).trans hkind, (hcontinues.name? id hid).trans hname, ?_⟩
      rcases value?_of_foldlM_apply hstore hnext hsmall hkind with hsame | ⟨_, hset, -⟩
      · exact hsame.trans hvalue
      · obtain ⟨_, _, _, _, _, owner, -, -, -, howner, -⟩ := hset
        cases hdetached.symm.trans howner
  | .leaf kind content, ⟨hkind, hcontent⟩ =>
      have hid := contains_of_kind? hkind
      exact ⟨(hcontinues.kind? id hid).trans hkind, (hcontinues.content? id hid).trans hcontent⟩

/-! ## Answers -/

/-- What a call has answered is true of the store: the reference of a creation denotes a node that is
what the seed says, and no other call has a reference. -/
def Honours (store : Store) (call : Batch.Call) (answer : Option Target) : Prop :=
  match call.edit with
  | .create seed => ∃ index id, answer = some (.created index) ∧
      store.resolve? (.created index) = some id ∧ store.Realizes id seed
  | _ => answer = none

/-- Later edits create their nodes behind those that are there. -/
theorem resolve?_created_of_foldlM_apply {edits : List Edit} (hstore : store.Sound)
    (hnext : edits.foldlM apply store = .ok next) {index : Nat} {id : NodeId}
    (hid : store.resolve? (.created index) = some id) :
    next.resolve? (.created index) = some id := by
  obtain ⟨later, -, hcreated⟩ := created_sublist_allocations hstore hnext
  have hlisted : store.created.toList[index]? = some id := by rwa [Array.getElem?_toList]
  have hlater : next.created.toList[index]? = some id := by
    rw [hcreated, List.getElem?_append_left (List.getElem?_eq_some_iff.mp hlisted).1, hlisted]
  rwa [Array.getElem?_toList] at hlater

/-- A batch that has counted as many nodes as the store has listed answers a call with a reference
to the node that the store will list next. -/
theorem honours_call {edits : List Edit} {middle : Store} {batch : Batch} {call : Batch.Call}
    (hstore : store.Sound) (hcount : batch.created = store.created.size)
    (hcall : store.apply call.edit = .ok middle) (hnext : edits.foldlM apply middle = .ok next)
    (hsmall : next.pool.bytesUsed < UInt32.size) :
    next.Honours call (batch.call call).2 := by
  rw [Batch.call_eq_push, Honours]
  generalize call.edit = edit at hcall
  cases edit with
  | create seed =>
      rw [apply_create] at hcall
      split at hcall
      · rename_i hroom
        cases hcall
        have hplanted := planted_sound hstore hroom seed
        have hmiddleSmall : (store.planted seed).pool.bytesUsed < UInt32.size :=
          Nat.lt_of_le_of_lt (bytesUsed_le_of_foldlM_apply hnext) hsmall
        have hlisted : (store.planted seed).resolve? (.created batch.created) =
            some store.table.freshId := by
          rw [hcount]
          exact Array.getElem?_push_size
        exact ⟨batch.created, store.table.freshId, rfl,
          resolve?_created_of_foldlM_apply hplanted hnext hlisted,
          (realizes_planted hstore seed hroom hmiddleSmall).of_foldlM_apply hplanted hnext hsmall
            (parent?_planted hroom seed)⟩
      · cases hcall
  | insert => rfl
  | remove => rfl
  | setAttribute => rfl
  | unsetAttribute => rfl

/-- Counting and listing keep pace with each other, so all answers are true. -/
theorem honours_record {batch : Batch} {calls : List Batch.Call} (hstore : store.Sound)
    (hcount : batch.created = store.created.size)
    (hnext : (calls.map Batch.Call.edit).foldlM apply store = .ok next)
    (hsmall : next.pool.bytesUsed < UInt32.size) :
    List.Forall₂ next.Honours calls (batch.record calls).2 := by
  induction calls generalizing store batch with
  | nil => exact .nil
  | cons call rest ih =>
      rw [List.map_cons, List.foldlM_cons] at hnext
      obtain ⟨middle, hmiddle, hrest⟩ := bind_eq_ok hnext
      have happlied := applied_of_apply hmiddle
      have hpace : (batch.call call).1.created = middle.created.size := by
        rw [Batch.created_call, happlied.size_created, hcount]
      exact .cons (honours_call hstore hcount hmiddle hrest hsmall)
        (ih (hstore.of_applied happlied) hpace hrest)

/-- Whether edits are pushed or written by their own methods, the batch and the answers are the same,
and the references are numbered from zero on.  If the batch succeeds, it has created as many nodes as
it has counted, and every reference that a call has answered denotes a node of the kind and with the
strings for which the call has asked. -/
theorem Reachable.references_denote {calls : List Batch.Call} (hstore : store.Reachable)
    (hnext : store.commit (Batch.record {} calls).1.edits = .ok next)
    (hsmall : next.pool.bytesUsed < UInt32.size) :
    Batch.record {} (calls.map fun call => .push call.edit) = Batch.record {} calls ∧
      (Batch.record {} calls).1.edits = calls.map Batch.Call.edit ∧
      (Batch.record {} calls).2.reduceOption =
        (List.range next.created.size).map Target.created ∧
      next.created.size = (Batch.record {} calls).1.created ∧
      List.Forall₂ next.Honours calls (Batch.record {} calls).2 := by
  have hedits : (Batch.record {} calls).1.edits = calls.map Batch.Call.edit :=
    Batch.edits_record {} calls
  rw [hedits] at hnext
  obtain ⟨applied, hrun, hresult⟩ := bind_eq_ok hnext
  cases hresult
  have hcreated : applied.created.size = (calls.map Batch.Call.edit).countP Edit.isCreation :=
    (size_created_of_foldlM_apply hrun).trans (Nat.zero_add _)
  have hreferences : (Batch.record {} calls).2.reduceOption =
      (List.range applied.created.size).map Target.created := by
    rw [Batch.references_record, hcreated, List.range_eq_range']
  have hhonours : List.Forall₂ applied.Honours calls (Batch.record {} calls).2 :=
    honours_record hstore.sound.of_next rfl hrun hsmall
  refine ⟨Batch.record_push {} calls, hedits, hreferences, ?_, hhonours⟩
  exact (size_created_of_foldlM_apply hrun).trans (Batch.created_record {} calls).symm

/-- The attribute that the element is given has the number between the element and the text, but no
reference.  The text is the second created node, and so says its reference. -/
theorem Reachable.references_denote_set_between :
    ∃ store next : Store, store.Reachable ∧
      store.commit (Batch.record {} [.create (.element [0x61]),
        .setAttribute (.created 0) [0x6b] [0x76], .push (.create (.leaf .text [0x74])),
        .push (.insert .last (.created 0) (.created 1)),
        .create (.attribute ([0x6b]) [0x77])]).1.edits = .ok next ∧
      next.pool.bytesUsed < UInt32.size ∧ next.created = #[2, 4, 5] ∧
      List.Forall₂ next.Honours
        [.create (.element [0x61]), .setAttribute (.created 0) [0x6b] [0x76],
          .push (.create (.leaf .text [0x74])), .push (.insert .last (.created 0) (.created 1)),
          .create (.attribute ([0x6b]) [0x77])]
        [some (.created 0), none, some (.created 1), none, some (.created 2)] := by
  obtain ⟨next, hnext, hsmall, hcreated⟩ : ∃ next, (Store.empty {}).commit
      (Batch.record {} [.create (.element [0x61]),
        .setAttribute (.created 0) [0x6b] [0x76], .push (.create (.leaf .text [0x74])),
        .push (.insert .last (.created 0) (.created 1)),
        .create (.attribute ([0x6b]) [0x77])]).1.edits = .ok next ∧
      next.pool.bytesUsed < UInt32.size ∧ next.created = #[2, 4, 5] :=
    ⟨_, by cbv, by decide, by decide⟩
  have hstore : (Store.empty {}).Reachable := .empty {}
  exact ⟨_, next, hstore, hnext, hsmall, hcreated,
    (hstore.references_denote hnext hsmall).2.2.2.2⟩

end Store

end VersionedXml
