import Mathlib.Data.List.Induction
import Mathlib.Data.List.Nodup
import VersionedXml.Path.Cache

/-!
# What a cache holds

A cache is asked for the paths of expressions, and from time to time it is cleared.  What it holds
then can be read off the calls alone: the paths that were used since it was last cleared, most
recently used first and each once, as many of them as there is room for.  Whether it holds a path or
not never changes an answer, but only what is counted.
-/

namespace VersionedXml.PathCache

/-! ## Calls -/

inductive Call where
  | compile (expression : String)
  | clear
  deriving DecidableEq, Repr

namespace Call

def isCompile : Call → Bool
  | compile _ => true
  | clear => false

def used? : Call → Option String
  | compile expression => if (Path.parse expression).isOk then some expression else none
  | clear => none

end Call

section

variable {μ : Type} (map : RecencyMap μ String Path)

def after (cache : PathCache μ) : Call → PathCache μ
  | .compile expression => (cache.compile map expression).2
  | .clear => cache.clear map

def afterAll (cache : PathCache μ) (calls : List Call) : PathCache μ :=
  calls.foldl (after map) cache

end

/-- The distinct expressions with a path that have been asked for since the last clearing, most
recently used first. -/
def recent (calls : List Call) : List String :=
  ((calls.reverse.takeWhile (· ≠ .clear)).filterMap Call.used?).eraseDups

/-! ## Distinct keys -/

/-- Keeping the first occurrence of every key commutes with dropping some keys altogether. -/
theorem eraseDups_filter (keep : String → Bool) (keys : List String) :
    (keys.filter keep).eraseDups = keys.eraseDups.filter keep := by
  -- The length decreases, and not only by the first key: its later occurrences go with it.
  induction hlength : keys.length using Nat.strongRecOn generalizing keys with
  | ind length ih =>
      cases keys with
      | nil => rfl
      | cons key rest =>
          have hshorter : (rest.filter fun other => !other == key).length < length := by
            have := List.length_filter_le (fun other => !other == key) rest
            rw [← hlength, List.length_cons]
            omega
          have hrest := ih _ hshorter (rest.filter fun other => !other == key) rfl
          rw [List.eraseDups_cons, List.filter_cons, List.filter_cons]
          by_cases hkey : keep key = true
          · rw [if_pos hkey, if_pos hkey, List.eraseDups_cons, ← hrest, List.filter_filter,
              List.filter_filter]
            simp only [Bool.and_comm]
          · have hsame : (rest.filter fun other => !other == key).filter keep = rest.filter keep := by
              rw [List.filter_filter]
              refine List.filter_congr fun other _ => ?_
              by_cases hother : other = key
              · simp [hother, hkey]
              · simp [hother]
            rw [if_neg hkey, if_neg hkey, ← hrest, hsame]

theorem nodup_eraseDups (keys : List String) : keys.eraseDups.Nodup := by
  induction keys with
  | nil => exact List.nodup_nil
  | cons key rest ih =>
      rw [List.eraseDups_cons, eraseDups_filter]
      refine List.nodup_cons.mpr ⟨?_, ih.sublist List.filter_sublist⟩
      simp

/-- Of distinct keys, one that is dropped makes room for one more. -/
theorem take_filter_take {keys : List String} (hkeys : keys.Nodup) (key : String) (room : Nat) :
    ((keys.take (room + 1)).filter (· != key)).take room = (keys.filter (· != key)).take room := by
  induction keys generalizing room with
  | nil => rfl
  | cons first rest ih =>
      obtain ⟨hfirst, hrest⟩ := List.nodup_cons.mp hkeys
      by_cases hkey : first = key
      · have hkept : ∀ other ∈ rest, (other != key) = true := fun other hother => by
          simpa using fun heq : other = key => hfirst (hkey.trans heq.symm ▸ hother)
        have htaken : ∀ other ∈ rest.take room, (other != key) = true :=
          fun other hother => hkept other (List.mem_of_mem_take hother)
        simp only [List.take_succ_cons, List.filter_cons, hkey, bne_self_eq_false,
          Bool.false_eq_true, if_false, List.filter_eq_self.mpr hkept,
          List.filter_eq_self.mpr htaken, List.take_take, Nat.min_self]
      · have hne : (first != key) = true := by simpa using hkey
        cases room with
        | zero => rfl
        | succ room =>
            rw [List.take_succ_cons, List.filter_cons, List.filter_cons, if_pos hne, if_pos hne,
              List.take_succ_cons, List.take_succ_cons, ih hrest]

/-- A key among the first ones leaves room for one more when it is dropped. -/
theorem filter_take_of_mem {keys : List String} (hkeys : keys.Nodup) {key : String} {room : Nat}
    (hkey : key ∈ keys.take (room + 1)) :
    (keys.take (room + 1)).filter (· != key) = (keys.filter (· != key)).take room := by
  have hshorter : ((keys.take (room + 1)).filter (· != key)).length <
      (keys.take (room + 1)).length :=
    List.length_filter_lt_length_iff_exists.mpr ⟨key, hkey, by simp⟩
  have hroom := List.length_take_le (room + 1) keys
  have hfits : ((keys.take (room + 1)).filter (· != key)).length ≤ room := by omega
  rw [← take_filter_take hkeys, List.take_of_length_le hfits]

theorem take_filter_of_notMem {keys : List String} (hkeys : keys.Nodup) {key : String} {room : Nat}
    (hkey : key ∉ keys.take (room + 1)) :
    (keys.filter (· != key)).take room = keys.take room := by
  have hkept : (keys.take (room + 1)).filter (· != key) = keys.take (room + 1) := by
    refine List.filter_eq_self.mpr fun other hother => ?_
    simpa using fun heq : other = key => hkey (heq ▸ hother)
  rw [← take_filter_take hkeys, hkept, List.take_take, Nat.min_eq_left (Nat.le_succ room)]

/-! ## Recently used expressions -/

theorem recent_compile {expression : String} {path : Path} (calls : List Call)
    (hpath : Path.parse expression = .ok path) :
    recent (calls ++ [.compile expression]) =
      expression :: (recent calls).filter (· != expression) := by
  have hused : (Call.compile expression).used? = some expression := by
    simp [Call.used?, hpath, Except.isOk, Except.toBool]
  unfold recent
  rw [List.reverse_concat, List.takeWhile_cons_of_pos (by simp), List.filterMap_cons_some hused,
    List.eraseDups_cons, eraseDups_filter]
  rfl

theorem recent_failure {expression : String} {failure : PathError} (calls : List Call)
    (hfailure : Path.parse expression = .error failure) :
    recent (calls ++ [.compile expression]) = recent calls := by
  have hunused : (Call.compile expression).used? = none := by
    simp [Call.used?, hfailure, Except.isOk, Except.toBool]
  unfold recent
  rw [List.reverse_concat, List.takeWhile_cons_of_pos (by simp), List.filterMap_cons_none hunused]

theorem recent_clear (calls : List Call) : recent (calls ++ [.clear]) = [] := by
  unfold recent
  rw [List.reverse_concat, List.takeWhile_cons_of_neg (by simp)]
  rfl

theorem nodup_recent (calls : List Call) : (recent calls).Nodup :=
  nodup_eraseDups _

/-! ## Calls one after the other -/

theorem countP_compile (calls : List Call) (expression : String) :
    (calls ++ [Call.compile expression]).countP Call.isCompile =
      calls.countP Call.isCompile + 1 := by
  rw [List.countP_append]
  rfl

structure Tracks {μ : Type} (map : RecencyMap μ String Path) (capacityOf : μ → Nat)
    (keysOf : μ → List String) (room : Nat) (calls : List Call) (cache : PathCache μ) : Prop where
  capacity : capacityOf cache.paths = room
  keys : keysOf cache.paths = (recent calls).take room
  /-- Under every expression stands its own path. -/
  paths : ∀ expression path, (map.get expression cache.paths).1 = some path →
    Path.parse expression = .ok path
  counted : ∃ hits misses : Nat, cache.hits = hits.toUInt64 ∧ cache.misses = misses.toUInt64 ∧
    hits + misses = calls.countP Call.isCompile

section

variable {μ : Type} {map : RecencyMap μ String Path} {capacityOf : μ → Nat}
  {keysOf : μ → List String} {room : Nat} {calls : List Call} {cache : PathCache μ}
  {expression : String}

namespace Tracks

/-- The path of an expression is found exactly if the expression is among the recent ones. -/
theorem get_eq (htracks : Tracks map capacityOf keysOf room calls cache)
    (hmap : map.IsLawful capacityOf keysOf) (expression : String) :
    (map.get expression cache.paths).1 =
      if expression ∈ (recent calls).take room then (Path.parse expression).toOption else none := by
  have hheld := hmap.isSome_get_iff expression cache.paths
  rw [htracks.keys] at hheld
  cases hfound : (map.get expression cache.paths).1 with
  | none =>
      have habsent : expression ∉ (recent calls).take room := by simp [← hheld, hfound]
      rw [if_neg habsent]
  | some path =>
      have hrecent : expression ∈ (recent calls).take room := by simp [← hheld, hfound]
      rw [if_pos hrecent, htracks.paths expression path hfound]
      rfl

theorem get_of_notMem (htracks : Tracks map capacityOf keysOf room calls cache)
    (hmap : map.IsLawful capacityOf keysOf) (habsent : expression ∉ (recent calls).take room) :
    (map.get expression cache.paths).1 = none := by
  rw [htracks.get_eq hmap, if_neg habsent]

theorem keys_get_of_notMem (htracks : Tracks map capacityOf keysOf room calls cache)
    (hmap : map.IsLawful capacityOf keysOf) (habsent : expression ∉ (recent calls).take room) :
    keysOf (map.get expression cache.paths).2 = (recent calls).take room := by
  rw [hmap.keys_get_of_notMem _ _ (htracks.keys ▸ habsent), htracks.keys]

theorem keys_get_of_mem (htracks : Tracks map capacityOf keysOf (room + 1) calls cache)
    (hmap : map.IsLawful capacityOf keysOf) {path : Path}
    (hrecent : expression ∈ (recent calls).take (room + 1))
    (hpath : Path.parse expression = .ok path) :
    keysOf (map.get expression cache.paths).2 =
      (recent (calls ++ [.compile expression])).take (room + 1) := by
  rw [hmap.keys_get_of_mem _ _ (htracks.keys ▸ hrecent), htracks.keys, recent_compile calls hpath,
    List.take_succ_cons, filter_take_of_mem (nodup_recent calls) hrecent]

/-- A path that is put into the map comes first, and the last one makes room for it if need be. -/
theorem keys_put (hmap : map.IsLawful capacityOf keysOf) {held : μ} {path : Path}
    (hcapacity : capacityOf held = room + 1) (hkeys : keysOf held = (recent calls).take (room + 1))
    (habsent : expression ∉ (recent calls).take (room + 1))
    (hpath : Path.parse expression = .ok path) :
    keysOf (map.put expression path held) =
      (recent (calls ++ [.compile expression])).take (room + 1) := by
  have hnew : expression ∉ keysOf held := hkeys ▸ habsent
  rw [recent_compile calls hpath, List.take_succ_cons,
    take_filter_of_notMem (nodup_recent calls) habsent]
  rcases Nat.lt_or_ge (recent calls).length (room + 1) with hroom | hfull
  · have hlength : (keysOf held).length < capacityOf held := by
      rw [hkeys, hcapacity, List.length_take]
      omega
    rw [hmap.keys_put_of_lt _ _ _ hnew hlength, hkeys, List.take_of_length_le (Nat.le_of_lt hroom),
      List.take_of_length_le (Nat.le_of_lt_succ hroom)]
  · have hlength : capacityOf held ≤ (keysOf held).length := by
      rw [hkeys, hcapacity, List.length_take]
      omega
    rw [hmap.keys_put_of_le _ _ _ hnew hlength, hkeys]
    congr 1
    rcases Nat.eq_or_lt_of_le hfull with heq | hlt
    · rw [List.take_of_length_le (Nat.le_of_eq heq.symm), List.dropLast_eq_take, ← heq,
        Nat.add_sub_cancel]
    · rw [List.dropLast_take hlt, Nat.add_sub_cancel]

theorem paths_put (hmap : map.IsLawful capacityOf keysOf) {held : μ} {path : Path}
    (hpaths : ∀ other stored, (map.get other held).1 = some stored →
      Path.parse other = .ok stored)
    (hpath : Path.parse expression = .ok path) {other : String} {stored : Path}
    (hother : (map.get other (map.put expression path held)).1 = some stored) :
    Path.parse other = .ok stored := by
  by_cases hne : other = expression
  · rw [hne, hmap.get_put_self] at hother
    rw [hne, hpath, Option.some.inj hother]
  · have hheld := (hmap.isSome_get_iff other _).mp (Option.isSome_iff_exists.mpr ⟨_, hother⟩)
    rw [hmap.get_put_of_ne _ _ _ _ hne hheld] at hother
    exact hpaths other stored hother

theorem get_of_keys_eq_nil (hmap : map.IsLawful capacityOf keysOf) {held : μ}
    (hkeys : keysOf held = []) (expression : String) : (map.get expression held).1 = none := by
  have hheld := hmap.isSome_get_iff expression held
  rw [hkeys] at hheld
  cases hfound : (map.get expression held).1 with
  | none => rfl
  | some path => cases hheld.mp (by rw [hfound]; rfl)

/-- Asking for a path is one more call, whether the cache holds the path or not. -/
theorem compile (htracks : Tracks map capacityOf keysOf (room + 1) calls cache)
    (hmap : map.IsLawful capacityOf keysOf) (expression : String) :
    Tracks map capacityOf keysOf (room + 1) (calls ++ [.compile expression])
      (cache.compile map expression).2 := by
  obtain ⟨hits, misses, hhits, hmisses, hcount⟩ := htracks.counted
  have hcounted := countP_compile calls expression
  have hget : ∀ other, (map.get other (map.get expression cache.paths).2).1 =
      (map.get other cache.paths).1 := fun other => hmap.get_get expression other cache.paths
  have hcapacity := (hmap.capacity_get expression cache.paths).trans htracks.capacity
  unfold PathCache.compile
  by_cases hrecent : expression ∈ (recent calls).take (room + 1)
  · obtain ⟨path, hfound⟩ := Option.isSome_iff_exists.mp
      ((hmap.isSome_get_iff expression cache.paths).mpr (htracks.keys ▸ hrecent))
    have hpath := htracks.paths expression path hfound
    simp only [hfound]
    refine ⟨hcapacity, htracks.keys_get_of_mem hmap hrecent hpath, fun other path hother =>
      htracks.paths other path ((hget other).symm.trans hother), hits + 1, misses, ?_, hmisses, ?_⟩
    · simp [hhits]
    · omega
  · have hkeys := htracks.keys_get_of_notMem hmap hrecent
    have hmissed : cache.misses + 1 = (misses + 1).toUInt64 := by simp [hmisses]
    simp only [htracks.get_of_notMem hmap hrecent]
    cases hparse : Path.parse expression with
    | error failure =>
        refine ⟨hcapacity, hkeys.trans ?_, fun other path hother =>
          htracks.paths other path ((hget other).symm.trans hother), hits, misses + 1, hhits,
          hmissed, ?_⟩
        · rw [recent_failure calls hparse]
        · omega
    | ok path =>
        refine ⟨(hmap.capacity_put _ _ _).trans hcapacity,
          keys_put hmap hcapacity hkeys hrecent hparse, fun other stored hother => ?_, hits,
          misses + 1, hhits, hmissed, ?_⟩
        · exact paths_put hmap (fun known path hknown =>
            htracks.paths known path ((hget known).symm.trans hknown)) hparse hother
        · omega

theorem clear (htracks : Tracks map capacityOf keysOf room calls cache)
    (hmap : map.IsLawful capacityOf keysOf) :
    Tracks map capacityOf keysOf room (calls ++ [.clear]) (cache.clear map) := by
  have hkeys : keysOf (map.clear cache.paths) = [] := hmap.keys_clear _
  refine ⟨(hmap.capacity_clear _).trans htracks.capacity, ?_, fun other path hother => ?_, ?_⟩
  · rw [recent_clear, List.take_nil]
    exact hkeys
  · cases (get_of_keys_eq_nil hmap hkeys other).symm.trans hother
  · rw [List.countP_append]
    exact htracks.counted

end Tracks

/-- Whatever is asked of a cache, it tracks the calls. -/
theorem tracks_afterAll (hmap : map.IsLawful capacityOf keysOf) (capacity : Nat)
    (calls : List Call) : Tracks map capacityOf keysOf (max 1 capacity) calls
      ((empty map capacity).afterAll map calls) := by
  have hpos : 0 < max 1 capacity := by omega
  obtain ⟨room, hroom⟩ : ∃ room, max 1 capacity = room + 1 := ⟨_, (Nat.succ_pred_eq_of_pos hpos).symm⟩
  -- The calls are taken from the last one on, as the recent expressions are.
  induction calls using List.reverseRecOn with
  | nil =>
      have hkeys := hmap.keys_withCapacity _ hpos
      refine ⟨hmap.capacity_withCapacity _ hpos, ?_, fun other path hother => ?_,
        0, 0, rfl, rfl, rfl⟩
      · rw [show recent [] = [] from rfl, List.take_nil]
        exact hkeys
      · cases (Tracks.get_of_keys_eq_nil hmap hkeys other).symm.trans hother
  | append_singleton calls call ih =>
      rw [afterAll, List.foldl_concat]
      rw [hroom] at ih ⊢
      cases call with
      | compile expression => exact ih.compile hmap expression
      | clear => exact ih.clear hmap

end

/-! ## What the cache answers and counts -/

/-- A cache without paths, after some calls.  The expressions that it holds, the next answer and
what is counted then follow from the calls. -/
structure IsRecency {μ : Type} (map : RecencyMap μ String Path) (keysOf : μ → List String)
    (capacity : Nat) (calls : List Call) (cache : PathCache μ) : Prop where
  /-- The cached expressions are the most recent ones, in this order. -/
  keys : keysOf cache.paths = (recent calls).take (max 1 capacity)
  size : (cache.stats map).entries = min (max 1 capacity) (recent calls).length
  /-- Every call for a path is counted once, as a hit or as a miss, and clearing keeps the count. -/
  asked : cache.hits + cache.misses = (calls.countP Call.isCompile).toUInt64
  /-- The counters are exact as long as the calls can be counted in 64 bits. -/
  asked_exactly : calls.countP Call.isCompile < UInt64.size →
    cache.hits.toNat + cache.misses.toNat = calls.countP Call.isCompile
  /-- The next answer is what parsing gives, be it a path or a failure. -/
  answer : ∀ expression, (cache.compile map expression).1 = Path.parse expression
  /-- The next call is a hit if its expression is cached. -/
  hit : ∀ expression ∈ (recent calls).take (max 1 capacity),
    (cache.compile map expression).2.hits = cache.hits + 1 ∧
      (cache.compile map expression).2.misses = cache.misses
  /-- Otherwise it is a miss. -/
  miss : ∀ expression ∉ (recent calls).take (max 1 capacity),
    (cache.compile map expression).2.hits = cache.hits ∧
      (cache.compile map expression).2.misses = cache.misses + 1
  /-- A failure is a miss, and changes neither the paths nor their order. -/
  failure : ∀ expression failure, Path.parse expression = .error failure →
    let next := (cache.compile map expression).2
    next.hits = cache.hits ∧ next.misses = cache.misses + 1 ∧
      keysOf next.paths = keysOf cache.paths ∧
      ∀ other, (map.get other next.paths).1 = (map.get other cache.paths).1
  cleared : (cache.clear map).hits = cache.hits ∧ (cache.clear map).misses = cache.misses
  /-- A query through the cache gives what a query without it gives, and is counted as a call. -/
  query : ∀ (store : Store) context expression, cache.query map store context expression =
    (store.query context expression, (cache.compile map expression).2)

namespace Tracks

variable {μ : Type} {map : RecencyMap μ String Path} {capacityOf : μ → Nat}
  {keysOf : μ → List String} {room : Nat} {calls : List Call} {cache : PathCache μ}
  {expression : String}

theorem asked (htracks : Tracks map capacityOf keysOf room calls cache) :
    cache.hits + cache.misses = (calls.countP Call.isCompile).toUInt64 := by
  obtain ⟨hits, misses, hhits, hmisses, hcount⟩ := htracks.counted
  rw [hhits, hmisses, ← hcount]
  exact (UInt64.ofNat_add hits misses).symm

theorem asked_exactly (htracks : Tracks map capacityOf keysOf room calls cache)
    (hsmall : calls.countP Call.isCompile < UInt64.size) :
    cache.hits.toNat + cache.misses.toNat = calls.countP Call.isCompile := by
  obtain ⟨hits, misses, hhits, hmisses, hcount⟩ := htracks.counted
  have hhitsSmall : hits < UInt64.size := by omega
  have hmissesSmall : misses < UInt64.size := by omega
  have hhitsNat : hits.toUInt64.toNat = hits := UInt64.toNat_ofNat_of_lt' hhitsSmall
  have hmissesNat : misses.toUInt64.toNat = misses := UInt64.toNat_ofNat_of_lt' hmissesSmall
  rw [hhits, hmisses, hhitsNat, hmissesNat, hcount]

theorem answer (htracks : Tracks map capacityOf keysOf room calls cache) (expression : String) :
    (cache.compile map expression).1 = Path.parse expression := by
  unfold PathCache.compile
  cases hfound : (map.get expression cache.paths).1 with
  | some path =>
      simp only [hfound]
      exact (htracks.paths expression path hfound).symm
  | none =>
      simp only [hfound]
      cases Path.parse expression with
      | error failure => rfl
      | ok path => rfl

theorem hit (htracks : Tracks map capacityOf keysOf room calls cache)
    (hmap : map.IsLawful capacityOf keysOf) (hrecent : expression ∈ (recent calls).take room) :
    (cache.compile map expression).2.hits = cache.hits + 1 ∧
      (cache.compile map expression).2.misses = cache.misses := by
  obtain ⟨path, hfound⟩ := Option.isSome_iff_exists.mp
    ((hmap.isSome_get_iff expression cache.paths).mpr (htracks.keys ▸ hrecent))
  simp only [PathCache.compile, hfound, and_self]

theorem miss (htracks : Tracks map capacityOf keysOf room calls cache)
    (hmap : map.IsLawful capacityOf keysOf) (habsent : expression ∉ (recent calls).take room) :
    (cache.compile map expression).2.hits = cache.hits ∧
      (cache.compile map expression).2.misses = cache.misses + 1 := by
  simp only [PathCache.compile, htracks.get_of_notMem hmap habsent]
  cases Path.parse expression with
  | error failure => exact ⟨rfl, rfl⟩
  | ok path => exact ⟨rfl, rfl⟩

theorem failure (htracks : Tracks map capacityOf keysOf room calls cache)
    (hmap : map.IsLawful capacityOf keysOf) {failure : PathError}
    (hfailure : Path.parse expression = .error failure) :
    let next := (cache.compile map expression).2
    next.hits = cache.hits ∧ next.misses = cache.misses + 1 ∧
      keysOf next.paths = keysOf cache.paths ∧
      ∀ other, (map.get other next.paths).1 = (map.get other cache.paths).1 := by
  have hfound : (map.get expression cache.paths).1 = none := by
    cases hfound : (map.get expression cache.paths).1 with
    | none => rfl
    | some path => cases (htracks.paths expression path hfound).symm.trans hfailure
  have habsent : expression ∉ keysOf cache.paths := by
    rw [← hmap.isSome_get_iff, hfound]
    exact Bool.false_ne_true
  simp only [PathCache.compile, hfound, hfailure, true_and]
  exact ⟨hmap.keys_get_of_notMem _ _ habsent, fun other => hmap.get_get _ other _⟩

end Tracks

/-- A cache is transparent, and it holds exactly the paths that were used most recently. -/
theorem afterAll_isRecency {μ : Type} {map : RecencyMap μ String Path} {capacityOf : μ → Nat}
    {keysOf : μ → List String} (hmap : map.IsLawful capacityOf keysOf) (capacity : Nat)
    (calls : List Call) :
    IsRecency map keysOf capacity calls ((empty map capacity).afterAll map calls) := by
  have htracks := tracks_afterAll hmap capacity calls
  refine ⟨htracks.keys, ?_, htracks.asked, htracks.asked_exactly, htracks.answer,
    fun _ => htracks.hit hmap, fun _ => htracks.miss hmap, fun _ _ => htracks.failure hmap,
    ⟨rfl, rfl⟩, ?_⟩
  · rw [stats, hmap.size_eq, htracks.keys, List.length_take]
  · intro store context expression
    have hanswer := congrArg (Except.map (store.select context)) (htracks.answer expression)
    exact Prod.ext hanswer rfl

/-- A path that is used again outlives one that is not, a failure makes no difference, and the next
call for the path that gave way is a miss. -/
theorem afterAll_isRecency_list :
    let calls : List Call := [.compile "/a", .compile "/b", .compile "/a", .compile "b",
      .compile "/c"]
    let cache := (empty RecencyList.map 2).afterAll RecencyList.map calls
    (RecencyList.map : RecencyMap (RecencyList String Path) String Path).IsLawful
        RecencyList.capacity RecencyList.keys ∧
      cache.paths.keys = ["/c", "/a"] ∧ cache.hits.toNat + cache.misses.toNat = 5 ∧
      (cache.compile RecencyList.map "/b").2.misses = cache.misses + 1 := by
  have hrecent : recent [.compile "/a", .compile "/b", .compile "/a", .compile "b",
      .compile "/c"] = ["/c", "/a", "/b"] := by
    decide +kernel
  have hlawful := RecencyList.map_isLawful String Path
  have hrecency := afterAll_isRecency hlawful 2
    [.compile "/a", .compile "/b", .compile "/a", .compile "b", .compile "/c"]
  have hkeys := hrecency.keys
  have hmiss := hrecency.miss "/b"
  rw [hrecent] at hkeys hmiss
  exact ⟨hlawful, hkeys, hrecency.asked_exactly (by decide), (hmiss (by decide)).2⟩

end VersionedXml.PathCache
