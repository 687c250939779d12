import VersionedXml.Proofs.Entity.Overfull
import VersionedXml.Proofs.Store.Normalization

/-!
# What limits change

A limit refuses, and it changes nothing of what it does not refuse.  A scan that a lower limit admits
is the scan under a higher one, and one that it refuses has emitted what the other emits first.  Edits
that are applied within few nodes are applied in the same way where more nodes are allowed.
-/

namespace VersionedXml

structure Limits.Within (low high : Limits) : Prop where
  maxAttributes : low.maxAttributes ≤ high.maxAttributes
  maxNodes : low.maxNodes ≤ high.maxNodes

namespace Store

def under (limits : Limits) (store : Store) : Store :=
  { store with limits := limits }

section

variable {limits : Limits} {store next : Store}

theorem Applied.apply_under {edit : Edit} (happlied : store.Applied edit next)
    (hmore : store.limits.maxNodes ≤ limits.maxNodes) :
    (store.under limits).apply edit = .ok (next.under limits) := by
  have hadd : ∀ node, store.table.size + 1 ≤ store.limits.maxNodes →
      store.table.add limits node = .ok (store.table.push node, store.table.freshId) :=
    fun node hroom => if_pos (Nat.le_trans hroom hmore)
  have htarget : (store.under limits).target = store.target := rfl
  cases happlied with
  | create seed hroom =>
      simp only [Store.apply, Store.create, under, hadd _ hroom]
  | insert place hparent hchild hcheck =>
      simp only [Store.apply, htarget, hparent, hchild]
      simp only [bind, Except.bind, Store.insert, under, hcheck]
  | remove hparent hchild hcheck =>
      simp only [Store.apply, htarget, hparent, hchild]
      simp only [bind, Except.bind, Store.remove, under, hcheck]
  | setKnown helement hcheck hfound =>
      simp only [Store.apply, htarget, helement]
      simp only [bind, Except.bind, Store.setAttribute, under, hcheck, hfound]
  | setNew helement hcheck hfound hroom =>
      simp only [Store.apply, htarget, helement]
      simp only [bind, Except.bind, Store.setAttribute, under, hcheck, hfound, hadd _ hroom]
  | unsetUnknown helement hcheck hfound =>
      simp only [Store.apply, htarget, helement]
      simp only [bind, Except.bind, Store.unsetAttribute, under, hcheck]
      split
      · rfl
      · rename_i nameId hname
        rw [hfound nameId hname]
  | unset helement hcheck hname hfound =>
      simp only [Store.apply, htarget, helement]
      simp only [bind, Except.bind, Store.unsetAttribute, under, hcheck, hname, hfound]

/-- Edits that are applied within fewer nodes are applied in the same way where more are allowed. -/
theorem foldlM_apply_under {edits : List Edit} (hnext : edits.foldlM apply store = .ok next)
    (hmore : store.limits.maxNodes ≤ limits.maxNodes) :
    edits.foldlM apply (store.under limits) = .ok (next.under limits) := by
  induction edits generalizing store with
  | nil =>
      cases hnext
      rfl
  | cons edit rest ih =>
      rw [List.foldlM_cons] at hnext
      obtain ⟨middle, hmiddle, hrest⟩ := bind_eq_ok hnext
      have hchange := applied_of_apply hmiddle
      have hkept : middle.limits = store.limits := by cases hchange <;> rfl
      rw [List.foldlM_cons, hchange.apply_under hmore]
      exact ih hrest (hkept ▸ hmore)

/-- A batch that is committed within fewer nodes makes the same version where more are allowed. -/
theorem commit_under {edits : List Edit} (hnext : store.commit edits = .ok next)
    (hmore : store.limits.maxNodes ≤ limits.maxNodes) :
    (store.under limits).commit edits = .ok (next.under limits) := by
  obtain ⟨applied, happlied, hresult⟩ := bind_eq_ok hnext
  cases hresult
  have hagain := foldlM_apply_under happlied hmore
  show edits.foldlM apply (store.next.under limits) >>= _ = _
  rw [hagain]
  rfl

end

/-- An input that is read under lower limits is read under higher ones to the same nodes and strings. -/
theorem parse_under {low high : Limits} (hwithin : low.Within high) {whitespace : Whitespace}
    {input : Buffer} {store : Store} (hparse : parse ⟨whitespace, low⟩ input = .ok store) :
    parse ⟨whitespace, high⟩ input = .ok (store.under high) := by
  have hcurbed := scan_curbed hwithin.maxAttributes input
  simp only [parse] at hparse ⊢
  generalize scan low.maxAttributes input = scanned at hcurbed hparse
  generalize scan high.maxAttributes input = other at hcurbed ⊢
  cases hcurbed with
  | refused _ => cases hparse
  | admitted entities =>
      simp only [Scanned.result] at hparse ⊢
      split at hparse
      · cases hparse
      · rename_i made hmade
        cases hparse
        have hagain : (empty high).commit _ = _ := commit_under hmade hwithin.maxNodes
        rw [hagain]

end Store

/-- Limits only refuse.  A scan that the lower limits admit is the scan under the higher ones, for every
sink.  A scan that they refuse has handed over what the other hands over first, which is all that ends
at or before the `<` of the tag it fails at.  Where no tag is refused, that tag collects more attributes
than the lower limit admits.  A document that is read under the lower limits is read under the higher
ones to the same nodes and strings. -/
theorem Limits.Within.only_refuse {low high : Limits} (hwithin : low.Within high)
    (input : Buffer) :
    (∀ (σ : Type) (receive : σ → PlacedEntity → σ) (sink : σ) (count : Nat),
      (scanInto low.maxAttributes receive sink input).2 = .ok count →
        scanInto high.maxAttributes receive sink input =
          scanInto low.maxAttributes receive sink input) ∧
    (∀ (σ : Type) (receive : σ → PlacedEntity → σ) (sink : σ) (position limit : Nat),
      (scanInto low.maxAttributes receive sink input).2 =
          .error (.tooManyAttributes position limit) →
        limit = low.maxAttributes ∧
        handed low.maxAttributes input <+: handed high.maxAttributes input ∧
        handed low.maxAttributes input =
          (handed high.maxAttributes input).filter (·.entity.span.stop ≤ position) ∧
        ∀ many, input.size ≤ many → (scan many input).failure = none ∧
          ∃ count, low.maxAttributes < count ∧ Collects many input position count) ∧
    ∀ (whitespace : Whitespace) (store : Store), Store.parse ⟨whitespace, low⟩ input = .ok store →
      ∃ other, Store.parse ⟨whitespace, high⟩ input = .ok other ∧
        other.table = store.table ∧ other.pool = store.pool := by
  have hcurbed := scan_curbed hwithin.maxAttributes input
  have hmany : ∀ many, input.size ≤ many → (scan many input).failure = none :=
    fun many => scan_failure_eq_none
  have hlow := @hmany low.maxAttributes
  refine ⟨?_, ?_, fun whitespace store hparse => ⟨_, Store.parse_under hwithin hparse, rfl, rfl⟩⟩
  all_goals
    simp only [handed_eq_map, scanInto_eq]
    generalize scan low.maxAttributes input = scanned at hcurbed hlow ⊢
    generalize scan high.maxAttributes input = other at hcurbed ⊢
    intro σ receive sink
  · intro count hcount
    cases hcurbed with
    | admitted entities => rfl
    | refused _ => cases hcount
  · intro position limit hfailure
    cases hcurbed with
    | admitted entities => cases hfailure
    | @refused front back offset failure? hoverfull =>
        cases hfailure
        have hexceeded : low.maxAttributes < input.size :=
          Nat.lt_of_not_le fun hle => nomatch hlow hle
        refine ⟨rfl, (List.prefix_append front back).map _, ?_, fun many hsize => ?_⟩
        · rw [List.filter_map]
          exact (congrArg (List.map (Entity.placedIn input)) hoverfull.filter_append_eq).symm
        · have hcollects := hoverfull.collects many (Nat.lt_of_lt_of_le hexceeded hsize)
          exact ⟨hmany many hsize, _, Nat.lt_succ_self _, hcollects⟩

/-- The input `<x/>y<a b c d`, whose second tag is cut off. -/
def cutOffTag : Buffer :=
  #[0x3c, 0x78, 0x2f, 0x3e, 0x79, 0x3c, 0x61, 0x20, 0x62, 0x20, 0x63, 0x20, 0x64]

/-- The input `<x/>y`. -/
def beforeTag : Buffer := #[0x3c, 0x78, 0x2f, 0x3e, 0x79]

/-- With one attribute allowed scanning fails at the second tag, though it is never completed.  With two
it succeeds, and what was handed over is the same.  What stands before the tag is read within three
nodes, and so within more. -/
theorem Limits.Within.only_refuse_cutOffTag :
    ∃ low high : Limits, low.Within high ∧ low.maxAttributes = 1 ∧ high.maxAttributes = 2 ∧
      scanInto 1 (fun count _ => count + 1) 0 cutOffTag =
        (3, .error (.tooManyAttributes 5 1)) ∧
      scanInto 2 (fun count _ => count + 1) 0 cutOffTag = (3, .ok 3) ∧
      handed 1 cutOffTag = (handed 2 cutOffTag).filter (·.entity.span.stop ≤ 5) ∧
      (∃ count, 1 < count ∧ Collects 13 cutOffTag 5 count) ∧
      ∃ store other, Store.parse ⟨.ignore, low⟩ beforeTag = .ok store ∧
        Store.parse ⟨.ignore, high⟩ beforeTag = .ok other ∧
        store.trees rootId = [.element [0x78] [] [], .leaf .text [0x79]] ∧
        other.table = store.table ∧ other.pool = store.pool := by
  have hwithin : Limits.Within { maxAttributes := 1, maxNodes := 3 } { maxAttributes := 2 } :=
    ⟨by decide, by decide⟩
  have hfails : scanInto 1 (fun count _ => count + 1) 0 cutOffTag =
      (3, .error (.tooManyAttributes 5 1)) := by
    decide +kernel
  obtain ⟨-, hrefused, -⟩ := hwithin.only_refuse cutOffTag
  obtain ⟨-, -, hsame, hcollects⟩ := hrefused _ _ _ _ _ (congrArg Prod.snd hfails)
  obtain ⟨entities, hscan, htrees⟩ : ∃ entities, scan 1 beforeTag = ⟨entities, none⟩ ∧
      Tree.ofEntities beforeTag .ignore entities =
        [.element [0x78] [] [], .leaf .text [0x79]] :=
    ⟨_, by cbv, by cbv⟩
  obtain ⟨store, hstore, hholds⟩ : ∃ store,
      Store.parse ⟨.ignore, { maxAttributes := 1, maxNodes := 3 }⟩ beforeTag = .ok store ∧
      store.Holds (Tree.ofEntities beforeTag .ignore entities) :=
    @Store.parse_eq_ok_of_scan ⟨.ignore, { maxAttributes := 1, maxNodes := 3 }⟩ beforeTag entities
      hscan (by decide) (by rw [htrees]; decide)
  rw [htrees] at hholds
  obtain ⟨-, -, hread⟩ := hwithin.only_refuse beforeTag
  obtain ⟨other, hother, htable, hpool⟩ := hread _ _ hstore
  exact ⟨_, _, hwithin, rfl, rfl, hfails, by decide +kernel, hsame,
    (hcollects 13 (by decide)).2, store, other, hstore, hother, hholds.trees, htable, hpool⟩

end VersionedXml
