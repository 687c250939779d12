import Mathlib
import VersionedXml.Proofs.Store.Applied

/-!
# Rebuilding versions

A version can be made in two ways: step by step, each version from the one before it, and from the
history of the last version alone.  The two ways start from stores with different room set aside, so
their pools may be laid out differently.  No answer depends on that: alike stores stay alike under
every edit, and fail alike.
-/

namespace VersionedXml

/-! ## Alike pools -/

namespace Pool

/-- Two pools hold the same strings under the same identifiers, and their indexes propose the same
candidates.  Only the room of the indexes may differ. -/
structure Alike (pool other : Pool) : Prop where
  extents : pool.extents = other.extents
  bytes : pool.bytes = other.bytes
  bucket : ∀ key, pool.bucket key = other.bucket key

theorem alike_sized (strings bytes strings' bytes' : Nat) :
    (sized strings bytes).Alike (sized strings' bytes') := by
  refine ⟨rfl, rfl, fun key => ?_⟩
  simp [bucket, sized]

namespace Alike

variable {pool other : Pool} (halike : pool.Alike other)
include halike

theorem get?_eq (id : StrId) : pool.get? id = other.get? id := by
  have hread : pool.read? = other.read? := by
    funext extent
    unfold read?
    rw [halike.bytes]
  unfold get?
  rw [halike.extents, hread]

theorem find?_eq (text : Bytes) : pool.find? text = other.find? text := by
  unfold find? findWith?
  rw [halike.bucket]
  simp only [halike.get?_eq]

theorem add (text : Bytes) :
    (pool.add digest text).1.Alike (other.add digest text).1 ∧
      (pool.add digest text).2 = (other.add digest text).2 := by
  have hsize : pool.size = other.size := congrArg Array.size halike.extents
  refine ⟨⟨?_, ?_, fun key => ?_⟩, ?_⟩
  · simp only [Pool.add, halike.extents, halike.bytes]
  · simp only [Pool.add, halike.bytes]
  · have hbuckets := halike.bucket
    simp only [Pool.bucket] at hbuckets
    simp only [Pool.add, Pool.bucket, Std.HashMap.getD_insert, hbuckets, hsize]
  · simp only [Pool.add, hsize]

theorem intern (text : Bytes) :
    (pool.intern text).1.Alike (other.intern text).1 ∧
      (pool.intern text).2 = (other.intern text).2 := by
  have hfind : pool.findWith? digest text = other.findWith? digest text := halike.find?_eq text
  unfold Pool.intern internWith
  rw [hfind]
  split
  · exact ⟨halike, rfl⟩
  · exact halike.add text

theorem plant (seed : Seed) :
    (seed.plant pool).1.Alike (seed.plant other).1 ∧ (seed.plant pool).2 = (seed.plant other).2 := by
  match seed with
  | .document => exact ⟨halike, rfl⟩
  | .element name =>
      obtain ⟨hpool, hname⟩ := halike.intern name
      exact ⟨hpool, by simp only [Seed.plant, hname]⟩
  | .attribute name value =>
      obtain ⟨hnamed, hname⟩ := halike.intern name
      obtain ⟨hpool, hvalue⟩ := hnamed.intern value
      exact ⟨hpool, by simp only [Seed.plant, hname, hvalue]⟩
  | .leaf kind content =>
      obtain ⟨hpool, hcontent⟩ := halike.intern content
      exact ⟨hpool, by simp only [Seed.plant, hcontent]⟩

end Alike

end Pool

namespace Store

/-! ## Alike stores -/

structure Alike (store other : Store) : Prop where
  table : store.table = other.table
  pool : store.pool.Alike other.pool
  history : store.history = other.history
  created : store.created = other.created
  version : store.version = other.version
  limits : store.limits = other.limits

inductive AlikeResult : Except StoreError Store → Except StoreError Store → Prop where
  | ok {store other : Store} (halike : store.Alike other) : AlikeResult (.ok store) (.ok other)
  | error (failure : StoreError) : AlikeResult (.error failure) (.error failure)

theorem AlikeResult.bind {first second : Except StoreError Store}
    {next : Store → Except StoreError Store} (hfirst : AlikeResult first second)
    (hnext : ∀ {store other : Store}, store.Alike other → AlikeResult (next store) (next other)) :
    AlikeResult (first >>= next) (second >>= next) := by
  cases hfirst with
  | ok halike => exact hnext halike
  | error failure => exact .error failure

/-- Alike stores agree on what is done with the node that an edit is about. -/
theorem alikeResult_of_target (target : Except StoreError NodeId)
    {first second : NodeId → Except StoreError Store}
    (halike : ∀ id, AlikeResult (first id) (second id)) :
    AlikeResult (target >>= first) (target >>= second) := by
  cases target with
  | ok id => exact halike id
  | error failure => exact .error failure

theorem alikeResult_foldlM {α : Type} {step : Store → α → Except StoreError Store}
    (hstep : ∀ {store other : Store} (item : α), store.Alike other →
      AlikeResult (step store item) (step other item))
    {store other : Store} (halike : store.Alike other) (items : List α) :
    AlikeResult (items.foldlM step store) (items.foldlM step other) := by
  induction items generalizing store other with
  | nil => exact .ok halike
  | cons item rest ih =>
      rw [List.foldlM_cons, List.foldlM_cons]
      exact (hstep item halike).bind ih

namespace Alike

variable {store other : Store} (halike : store.Alike other)
include halike

theorem target_eq (target : Target) : store.target target = other.target target := by
  unfold Store.target
  rw [halike.created]

theorem create (seed : Seed) : AlikeResult (store.create seed) (other.create seed) := by
  obtain ⟨hpool, hnode⟩ := halike.pool.plant seed
  simp only [Store.create, halike.table, halike.limits, hnode]
  split
  · exact .error _
  · exact .ok ⟨rfl, hpool, halike.history, by rw [halike.created], halike.version, rfl⟩

theorem relink (change : NodeTable → NodeTable) :
    Alike { store with table := change store.table } { other with table := change other.table } :=
  ⟨congrArg change halike.table, halike.pool, halike.history, halike.created, halike.version,
    halike.limits⟩

theorem insert (place : Place) (parent child : NodeId) :
    AlikeResult (store.insert place parent child) (other.insert place parent child) := by
  have hrelinked := halike.relink fun table => table.attach place .children parent child
  unfold Store.insert
  rw [halike.table] at hrelinked ⊢
  split
  · exact .error _
  · exact .ok hrelinked

theorem remove (parent child : NodeId) :
    AlikeResult (store.remove parent child) (other.remove parent child) := by
  have hrelinked := halike.relink fun table => table.detach .children parent child
  unfold Store.remove
  rw [halike.table] at hrelinked ⊢
  split
  · exact .error _
  · exact .ok hrelinked

theorem setAttribute (element : NodeId) (name value : Bytes) :
    AlikeResult (store.setAttribute element name value)
      (other.setAttribute element name value) := by
  obtain ⟨hnamed, hname⟩ := halike.pool.intern name
  obtain ⟨hvalued, hvalue⟩ := hnamed.intern value
  simp only [Store.setAttribute, halike.table, halike.limits, hname, hvalue]
  split
  · exact .error _
  · split
    · exact .error _
    · exact .ok ⟨rfl, hvalued, halike.history, halike.created, halike.version, rfl⟩
    · split
      · exact .error _
      · exact .ok ⟨rfl, hvalued, halike.history, halike.created, halike.version, rfl⟩

theorem unsetAttribute (element : NodeId) (name : Bytes) :
    AlikeResult (store.unsetAttribute element name) (other.unsetAttribute element name) := by
  unfold Store.unsetAttribute
  rw [halike.table, halike.pool.find?_eq]
  split
  · exact .error _
  · split
    · exact .ok halike
    · split
      · exact .error _
      · exact .ok halike
      · rename_i id _
        have hrelinked := halike.relink fun table => table.detach .attributes element id
        rw [halike.table] at hrelinked
        exact .ok hrelinked

/-- Alike stores stay alike under an edit, or refuse it for the same reason. -/
theorem apply (edit : Edit) : AlikeResult (store.apply edit) (other.apply edit) := by
  cases edit with
  | create seed => exact halike.create seed
  | insert place parent child =>
      simp only [Store.apply, halike.target_eq]
      exact alikeResult_of_target _ fun parentId => alikeResult_of_target _ fun childId =>
        halike.insert place parentId childId
  | remove parent child =>
      simp only [Store.apply, halike.target_eq]
      exact alikeResult_of_target _ fun parentId => alikeResult_of_target _ fun childId =>
        halike.remove parentId childId
  | setAttribute element name value =>
      simp only [Store.apply, halike.target_eq]
      exact alikeResult_of_target _ fun elementId => halike.setAttribute elementId name value
  | unsetAttribute element name =>
      simp only [Store.apply, halike.target_eq]
      exact alikeResult_of_target _ fun elementId => halike.unsetAttribute elementId name

/-- Alike stores stay alike under a batch, or refuse it for the same reason. -/
theorem commit (edits : List Edit) : AlikeResult (store.commit edits) (other.commit edits) := by
  have hnext : store.next.Alike other.next :=
    ⟨halike.table, halike.pool, halike.history, rfl, congrArg Nat.succ halike.version, halike.limits⟩
  have happlied := alikeResult_foldlM (fun edit halike => halike.apply edit) hnext edits
  refine happlied.bind fun hresult => .ok ?_
  exact ⟨hresult.table, hresult.pool, congrArg (· ++ [edits]) hresult.history, hresult.created,
    hresult.version, hresult.limits⟩

end Alike

theorem alike_sized (limits : Limits) (nodes strings bytes nodes' strings' bytes' : Nat) :
    (sized limits nodes strings bytes).Alike (sized limits nodes' strings' bytes') :=
  ⟨rfl, Pool.alike_sized strings bytes strings' bytes', rfl, rfl, rfl, rfl⟩

/-! ## Chains of versions -/

theorem written_of_commit {store next : Store} {edits : List Edit}
    (hnext : store.commit edits = .ok next) :
    next.history = store.history ++ [edits] ∧ next.version = store.version + 1 ∧
      next.limits = store.limits := by
  obtain ⟨applied, happlied, hresult⟩ := bind_eq_ok hnext
  cases hresult
  obtain ⟨hhistory, hkept⟩ := kept_of_foldlM_apply happlied
  exact ⟨congrArg (· ++ [edits]) hhistory, hkept⟩

/-- The last version of a chain tells how all of them were made. -/
structure Recorded (versions : Nat → Store) (count : Nat) : Prop where
  length_history : (versions count).history.length = count
  version : (versions count).version = count
  limits : (versions count).limits = (versions 0).limits
  /-- The first batches lead from the base to the version behind them. -/
  foldlM_take : ∀ k ≤ count,
    ((versions count).history.take k).foldlM commit (versions 0) = .ok (versions k)

/-- Each commit records its batch, so a chain records itself. -/
theorem recorded_of_chain {versions : Nat → Store} {count : Nat}
    (hhistory : (versions 0).history = []) (hversion : (versions 0).version = 0)
    (hstep : ∀ k < count, ∃ edits, (versions k).commit edits = .ok (versions (k + 1))) :
    Recorded versions count := by
  induction count with
  | zero =>
      refine ⟨by rw [hhistory]; rfl, hversion, rfl, fun k hk => ?_⟩
      cases Nat.le_zero.mp hk
      rfl
  | succ count ih =>
      have hrecorded := ih fun k hk => hstep k (Nat.lt_succ_of_lt hk)
      obtain ⟨edits, hcommit⟩ := hstep count (Nat.lt_succ_self count)
      obtain ⟨hwritten, hcounted, hlimits⟩ := written_of_commit hcommit
      have hlength := hrecorded.length_history
      refine ⟨?_, by rw [hcounted, hrecorded.version], hlimits.trans hrecorded.limits, ?_⟩
      · rw [hwritten, List.length_append, hlength]
        rfl
      · intro k hk
        rw [hwritten]
        by_cases hlast : k = count + 1
        · have hall := hrecorded.foldlM_take count (Nat.le_refl count)
          rw [List.take_of_length_le (Nat.le_of_eq hlength)] at hall
          rw [hlast, List.take_of_length_le (by simp [hlength]), List.foldlM_append, hall]
          change [edits].foldlM commit (versions count) = _
          rw [List.foldlM_cons, hcommit]
          rfl
        · have hearlier : k ≤ count := by omega
          rw [List.take_append_of_le_length (by omega)]
          exact hrecorded.foldlM_take k hearlier

/-- The first batches lead to the version behind them from any other base as well. -/
theorem Recorded.exists_alike {versions : Nat → Store} {count k : Nat}
    (hrecorded : Recorded versions count) (hk : k ≤ count) {limits : Limits}
    {nodes strings bytes : Nat} (hbase : versions 0 = sized limits nodes strings bytes)
    (nodes' strings' bytes' : Nat) :
    ∃ again,
      ((versions count).history.take k).foldlM commit
        (sized (versions count).limits nodes' strings' bytes') = .ok again ∧
      again.Alike (versions k) := by
  have hversion := hrecorded.foldlM_take k hk
  have hlimits : (versions count).limits = limits := by
    rw [hrecorded.limits, hbase]
    rfl
  have hresult := alikeResult_foldlM (fun edits halike => halike.commit edits)
    (alike_sized limits nodes' strings' bytes' nodes strings bytes)
    ((versions count).history.take k)
  -- The batches succeed from the base itself, so they cannot fail from an alike one.
  rw [← hbase, hversion] at hresult
  rw [hlimits]
  generalize ((versions count).history.take k).foldlM commit _ = replayed at hresult ⊢
  cases hresult with
  | ok halike => exact ⟨_, rfl, halike⟩

/-- Every version of a chain is rebuilt from the history of the last one: the last version from the
whole history, and the `k`-th from the first `k` batches, whatever room is set aside for it. -/
theorem rebuild_chain (limits : Limits) (nodes strings bytes : Nat) (versions : Nat → Store)
    (count : Nat) (hbase : versions 0 = sized limits nodes strings bytes)
    (hstep : ∀ k < count, ∃ edits, (versions k).commit edits = .ok (versions (k + 1))) :
    (∃ again, (versions count).rebuild = .ok again ∧ again.Alike (versions count)) ∧
      (versions count).version = (versions count).history.length ∧
      (versions count).history.length = count ∧
      ∀ k ≤ count, ∀ nodes strings bytes, ∃ again,
        ((versions count).history.take k).foldlM commit
          (sized (versions count).limits nodes strings bytes) = .ok again ∧
        again.Alike (versions k) := by
  have hrecorded : Recorded versions count :=
    recorded_of_chain (by rw [hbase]; rfl) (by rw [hbase]; rfl) hstep
  have hlength := hrecorded.length_history
  refine ⟨?_, hrecorded.version.trans hlength.symm, hlength, ?_⟩
  · have hwhole := hrecorded.exists_alike (Nat.le_refl count) hbase (versions count).table.size
      (versions count).pool.size (versions count).pool.bytesUsed
    rw [List.take_of_length_le (Nat.le_of_eq hlength)] at hwhole
    exact hwhole
  · intro k hk
    exact hrecorded.exists_alike hk hbase

/-- Two batches, in each of which the first new node is referred to. -/
theorem rebuild_chain_twice :
    ∃ first second again earlier : Store,
      (sized {} 16 8 64).commit
        [.create (.element [0x61]), .insert .last (.node 1) (.created 0)] = .ok first ∧
      first.commit
        [.create (.leaf .text [0x61]), .insert .last (.node 2) (.created 0)] = .ok second ∧
      second.created = #[3] ∧ second.version = 2 ∧
      second.rebuild = .ok again ∧ again.Alike second ∧
      (second.history.take 1).foldlM commit (sized second.limits 0 0 0) = .ok earlier ∧
      earlier.Alike first := by
  obtain ⟨first, second, hfirst, hsecond, hcreated⟩ :
      ∃ first second : Store,
        (sized {} 16 8 64).commit
          [.create (.element [0x61]), .insert .last (.node 1) (.created 0)] = .ok first ∧
        first.commit
          [.create (.leaf .text [0x61]), .insert .last (.node 2) (.created 0)] = .ok second ∧
        second.created = #[3] :=
    ⟨_, _, by cbv, by cbv, by decide⟩
  let versions : Nat → Store := fun k => [sized {} 16 8 64, first, second].getD k second
  have hstep : ∀ k < 2, ∃ edits, (versions k).commit edits = .ok (versions (k + 1)) := by
    intro k hk
    rcases (by omega : k = 0 ∨ k = 1) with rfl | rfl
    · exact ⟨_, hfirst⟩
    · exact ⟨_, hsecond⟩
  obtain ⟨⟨again, hagain, halike⟩, hversion, hlength, hearlier⟩ :=
    rebuild_chain {} 16 8 64 versions 2 rfl hstep
  obtain ⟨earlier, hreplayed, hsame⟩ := hearlier 1 (by decide) 0 0 0
  exact ⟨first, second, again, earlier, hfirst, hsecond, hcreated, hversion.trans hlength, hagain,
    halike, hreplayed, hsame⟩

end Store

end VersionedXml
