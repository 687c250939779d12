/-!
# Maps of bounded size

A map of bounded size keeps the values of the keys that were used most recently.  Getting the value
of a key makes this key the most recent one, and so does putting a value under it.  A new key that
finds no room takes the place of the least recent one.
-/

namespace VersionedXml

/-- The operations on such maps, of which `μ` is the type. -/
structure RecencyMap (μ κ ν : Type) where
  withCapacity : Nat → μ
  get : κ → μ → Option ν × μ
  put : κ → ν → μ → μ
  clear : μ → μ
  size : μ → Nat

/-- The operations do what they should to the keys, listed from the most recent one on, and to the
value of each key. -/
structure RecencyMap.IsLawful {μ κ ν : Type} [DecidableEq κ] (map : RecencyMap μ κ ν)
    (capacity : μ → Nat) (keys : μ → List κ) : Prop where
  capacity_withCapacity : ∀ room, 0 < room → capacity (map.withCapacity room) = room
  keys_withCapacity : ∀ room, 0 < room → keys (map.withCapacity room) = []
  size_eq : ∀ held, map.size held = (keys held).length
  isSome_get_iff : ∀ key held, (map.get key held).1.isSome = true ↔ key ∈ keys held
  keys_get_of_mem : ∀ key held, key ∈ keys held →
    keys (map.get key held).2 = key :: (keys held).filter (· != key)
  keys_get_of_notMem : ∀ key held, key ∉ keys held → keys (map.get key held).2 = keys held
  get_get : ∀ key other held, (map.get other (map.get key held).2).1 = (map.get other held).1
  capacity_get : ∀ key held, capacity (map.get key held).2 = capacity held
  keys_put_of_mem : ∀ key value held, key ∈ keys held →
    keys (map.put key value held) = key :: (keys held).filter (· != key)
  keys_put_of_lt : ∀ key value held, key ∉ keys held → (keys held).length < capacity held →
    keys (map.put key value held) = key :: keys held
  keys_put_of_le : ∀ key value held, key ∉ keys held → capacity held ≤ (keys held).length →
    keys (map.put key value held) = key :: (keys held).dropLast
  get_put_self : ∀ key value held, (map.get key (map.put key value held)).1 = some value
  get_put_of_ne : ∀ key other value held, other ≠ key → other ∈ keys (map.put key value held) →
    (map.get other (map.put key value held)).1 = (map.get other held).1
  capacity_put : ∀ key value held, capacity (map.put key value held) = capacity held
  keys_clear : ∀ held, keys (map.clear held) = []
  capacity_clear : ∀ held, capacity (map.clear held) = capacity held

/-! ## A list -/

structure RecencyList (κ ν : Type) where
  capacity : Nat
  entries : List (κ × ν)
  deriving Repr

namespace RecencyList

variable {κ ν : Type} [DecidableEq κ]

def keys (held : RecencyList κ ν) : List κ :=
  held.entries.map Prod.fst

def get (key : κ) (held : RecencyList κ ν) : Option ν × RecencyList κ ν :=
  match held.entries.lookup key with
  | none => (none, held)
  | some value =>
      let others := held.entries.filter (·.1 != key)
      (some value, { held with entries := (key, value) :: others })

/-- What stays behind a key that is put first. -/
def others (key : κ) (held : RecencyList κ ν) : List (κ × ν) :=
  if key ∈ held.keys ∨ held.keys.length < held.capacity then
    held.entries.filter (·.1 != key)
  else
    held.entries.dropLast

def put (key : κ) (value : ν) (held : RecencyList κ ν) : RecencyList κ ν :=
  { held with entries := (key, value) :: held.others key }

def map : RecencyMap (RecencyList κ ν) κ ν where
  withCapacity := fun capacity => ⟨capacity, []⟩
  get := get
  put := put
  clear := fun held => { held with entries := [] }
  size := fun held => held.entries.length

section

variable {key other : κ} {held : RecencyList κ ν}

theorem isSome_lookup_iff : (held.entries.lookup key).isSome = true ↔ key ∈ held.keys := by
  rw [List.lookup_isSome_iff, keys, List.mem_map]
  constructor
  · rintro ⟨entry, hentry, hkey⟩
    exact ⟨entry, hentry, (beq_iff_eq.mp hkey).symm⟩
  · rintro ⟨entry, hentry, rfl⟩
    exact ⟨entry, hentry, beq_self_eq_true _⟩

theorem map_fst_filter (key : κ) (entries : List (κ × ν)) :
    (entries.filter (·.1 != key)).map Prod.fst = (entries.map Prod.fst).filter (· != key) := by
  rw [List.filter_map]
  rfl

theorem filter_keys_of_notMem (hkey : key ∉ held.keys) :
    held.keys.filter (· != key) = held.keys := by
  refine List.filter_eq_self.mpr fun first hfirst => ?_
  simpa using fun heq : first = key => hkey (heq ▸ hfirst)

theorem lookup_filter_of_ne (hne : other ≠ key) (entries : List (κ × ν)) :
    (entries.filter (·.1 != key)).lookup other = entries.lookup other := by
  induction entries with
  | nil => rfl
  | cons entry rest ih =>
      obtain ⟨first, stored⟩ := entry
      by_cases hfirst : first = key
      · have hother : (other == first) = false := by simpa [hfirst] using hne
        rw [List.filter_cons_of_neg (by simp [hfirst]), ih, List.lookup_cons, hother]
      · rw [List.filter_cons_of_pos (by simpa using hfirst), List.lookup_cons, List.lookup_cons, ih]

theorem lookup_dropLast_of_mem {entries : List (κ × ν)}
    (hother : other ∈ entries.dropLast.map Prod.fst) :
    entries.dropLast.lookup other = entries.lookup other := by
  induction entries with
  | nil => rfl
  | cons entry rest ih =>
      obtain ⟨first, stored⟩ := entry
      cases rest with
      | nil => simp at hother
      | cons second others =>
          rw [List.dropLast_cons_cons, List.map_cons, List.mem_cons] at hother
          rw [List.dropLast_cons_cons, List.lookup_cons, List.lookup_cons]
          by_cases heq : other = first
          · simp [heq]
          · have hne : (other == first) = false := by simpa using heq
            rw [hne]
            exact ih (hother.resolve_left heq)

theorem map_fst_others_of_room (hroom : key ∈ held.keys ∨ held.keys.length < held.capacity) :
    (held.others key).map Prod.fst = held.keys.filter (· != key) := by
  rw [others, if_pos hroom]
  exact map_fst_filter key held.entries

theorem map_fst_others_of_full (hkey : key ∉ held.keys)
    (hfull : held.capacity ≤ held.keys.length) :
    (held.others key).map Prod.fst = held.keys.dropLast := by
  rw [others, if_neg (not_or.mpr ⟨hkey, Nat.not_lt.mpr hfull⟩)]
  exact List.map_dropLast

theorem lookup_others_of_ne (hne : other ≠ key) (hother : other ∈ (held.others key).map Prod.fst) :
    (held.others key).lookup other = held.entries.lookup other := by
  rw [others] at hother ⊢
  split
  · exact lookup_filter_of_ne hne held.entries
  · rename_i hfull
    rw [if_neg hfull] at hother
    exact lookup_dropLast_of_mem hother

theorem lookup_cons_of_ne (hne : other ≠ key) (value : ν) (entries : List (κ × ν)) :
    ((key, value) :: entries).lookup other = entries.lookup other := by
  have hbeq : (other == key) = false := by simpa using hne
  rw [List.lookup_cons, hbeq]

theorem fst_get (key : κ) (held : RecencyList κ ν) :
    (held.get key).1 = held.entries.lookup key := by
  unfold get
  cases held.entries.lookup key <;> rfl

theorem lookup_get (key other : κ) (held : RecencyList κ ν) :
    (held.get key).2.entries.lookup other = held.entries.lookup other := by
  unfold get
  cases hvalue : held.entries.lookup key with
  | none => rfl
  | some value =>
      by_cases hother : other = key
      · rw [hother, hvalue]
        exact List.lookup_cons_self
      · exact (lookup_cons_of_ne hother _ _).trans (lookup_filter_of_ne hother held.entries)

end

/-- The list is a map of bounded size. -/
theorem map_isLawful (κ ν : Type) [DecidableEq κ] :
    (map : RecencyMap (RecencyList κ ν) κ ν).IsLawful capacity keys where
  capacity_withCapacity := fun _ _ => rfl
  keys_withCapacity := fun _ _ => rfl
  size_eq := fun held => (List.length_map _).symm
  isSome_get_iff := fun key held => by
    rw [← isSome_lookup_iff, ← fst_get]
    rfl
  keys_get_of_mem := fun key held hkey => by
    obtain ⟨value, hvalue⟩ := Option.isSome_iff_exists.mp (isSome_lookup_iff.mpr hkey)
    simp only [map, get, hvalue, keys, List.map_cons, map_fst_filter]
  keys_get_of_notMem := fun key held hkey => by
    have hnone := Option.not_isSome_iff_eq_none.mp (mt isSome_lookup_iff.mp hkey)
    simp only [map, get, hnone]
  get_get := fun key other held =>
    (fst_get other _).trans ((lookup_get key other held).trans (fst_get other held).symm)
  capacity_get := fun key held => by
    simp only [map, get]
    cases held.entries.lookup key <;> rfl
  keys_put_of_mem := fun key _ _ hkey => congrArg (key :: ·) (map_fst_others_of_room (.inl hkey))
  keys_put_of_lt := fun key _ _ hkey hroom =>
    congrArg (key :: ·) ((map_fst_others_of_room (.inr hroom)).trans (filter_keys_of_notMem hkey))
  keys_put_of_le := fun key _ _ hkey hfull => congrArg (key :: ·) (map_fst_others_of_full hkey hfull)
  get_put_self := fun key _ _ => (fst_get key _).trans List.lookup_cons_self
  get_put_of_ne := fun key other value held hne hother => by
    have hrest := (List.mem_cons.mp hother).resolve_left hne
    have hlookup := (lookup_cons_of_ne hne value _).trans (lookup_others_of_ne hne hrest)
    exact (fst_get other _).trans (hlookup.trans (fst_get other held).symm)
  capacity_put := fun _ _ _ => rfl
  keys_clear := fun _ => rfl
  capacity_clear := fun _ => rfl

end RecencyList

end VersionedXml
