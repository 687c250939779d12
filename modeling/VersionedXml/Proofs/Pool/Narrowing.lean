import VersionedXml.Proofs.Pool.Interning

/-!
# Pools with more bytes than 32 bits can count

Nothing bounds the bytes of a pool, but the place of a string is kept in 32 bits.  A pool only
grows, so what an identifier denotes never changes.  A string that is added is read at its offset and
with its length as far as 32 bits hold them.  This gives it back as long as both fit, and behind the
first four gibibytes it may give back bytes of other strings.
-/

namespace VersionedXml.Pool

variable {digest : Bytes → UInt64} {pool : Pool} {texts : List Bytes} {text : Bytes}

/-! ## Adding -/

theorem size_add (digest : Bytes → UInt64) (pool : Pool) (text : Bytes) :
    (pool.add digest text).1.size = pool.size + 1 :=
  Array.size_push _

/-- A string that is added is read where 32 bits of its offset and of its length tell. -/
theorem get?_add_snd (hroom : pool.size < UInt32.size) :
    (pool.add digest text).1.get? (pool.add digest text).2 =
      some (((pool.bytes.data.toList ++ text).drop (pool.bytesUsed % UInt32.size)).take
        (text.length % UInt32.size)) := by
  have hid : (pool.add digest text).2.toNat = pool.size := UInt32.toNat_ofNat_of_lt' hroom
  have hoffset : pool.bytesUsed.toUInt32.toNat = pool.bytesUsed % UInt32.size :=
    UInt32.toNat_ofNat'
  have hlength : text.length.toUInt32.toNat = text.length % UInt32.size := UInt32.toNat_ofNat'
  have hfits : pool.bytesUsed % UInt32.size + text.length % UInt32.size ≤
      (pool.add digest text).1.bytesUsed := by
    rw [bytesUsed_add]
    exact Nat.add_le_add (Nat.mod_le _ _) (Nat.mod_le _ _)
  have hplace : (pool.add digest text).1.extents[pool.size]? =
      some ⟨pool.bytesUsed.toUInt32, text.length.toUInt32⟩ :=
    Array.getElem?_push_size
  rw [get?, hid, hplace, Option.bind_some, read?_eq, toList_bytes_add, hoffset, hlength,
    if_pos hfits]

/-- A string that is found is given back, and the others are read where they have been added. -/
theorem get?_internWith_snd (hempty : pool.get? emptyId = some [])
    (hroom : pool.size < UInt32.size) :
    (pool.internWith digest text).1.get? (pool.internWith digest text).2 =
      if (pool.findWith? digest text).isSome then some text
      else some (((pool.bytes.data.toList ++ text).drop (pool.bytesUsed % UInt32.size)).take
        (text.length % UInt32.size)) := by
  unfold internWith
  cases hfound : pool.findWith? digest text with
  | none => exact get?_add_snd hroom
  | some id =>
      by_cases hne : text = []
      · subst hne
        cases hfound
        exact hempty
      · exact get?_of_findWith? hne hfound

/-! ## The first four gibibytes -/

namespace Holds

theorem get?_emptyId (hpool : pool.Holds digest texts) : pool.get? emptyId = some [] := by
  rw [hpool.get?_eq]
  exact List.head?_eq_getElem?.symm.trans hpool.head

/-- Behind few bytes a string is given back exactly if its length fits into 32 bits. -/
theorem get?_internWith_iff (hpool : pool.Holds digest texts) (text : Bytes) :
    (pool.internWith digest text).1.get? (pool.internWith digest text).2 = some text ↔
      text.length < UInt32.size := by
  have hroom : pool.size < UInt32.size := hpool.size ▸ hpool.length_lt
  have hbytes : (pool.bytes.data.toList ++ text).drop pool.bytesUsed = text :=
    List.drop_left' pool.length_toList_bytes
  rw [get?_internWith_snd hpool.get?_emptyId hroom, Nat.mod_eq_of_lt hpool.small, hbytes]
  split
  · rename_i hfound
    have htext : text ∈ texts := by
      by_contra hnot
      rw [hpool.findWith?_eq, if_neg hnot] at hfound
      cases hfound
    have hlength := (List.sublist_flatten_of_mem htext).length_le
    rw [hpool.length_flatten] at hlength
    exact iff_of_true rfl (Nat.lt_of_le_of_lt hlength hpool.small)
  · constructor
    · intro htake
      have hlength := congrArg List.length (Option.some.inj htake)
      rw [List.length_take] at hlength
      have hless : text.length % UInt32.size < UInt32.size := Nat.mod_lt _ (by decide)
      omega
    · intro hshort
      rw [Nat.mod_eq_of_lt hshort, List.take_length]

/-- Adding a string gives a meaning to no other identifier than its own. -/
theorem get?_add_cases (hpool : pool.Holds digest texts) {id : StrId} {known : Bytes}
    (hid : (pool.add digest text).1.get? id = some known) :
    pool.get? id = some known ∨ id = (pool.add digest text).2 := by
  cases hbefore : pool.get? id with
  | some other => exact .inl ((get?_add hbefore).symm.trans hid)
  | none =>
      obtain ⟨extent, hextent, -⟩ := Option.bind_eq_some_iff.mp hid
      have hlt : id.toNat < pool.size + 1 :=
        size_add digest pool text ▸ (Array.getElem?_eq_some_iff.mp hextent).1
      rw [hpool.get?_eq, List.getElem?_eq_none_iff, ← hpool.size] at hbefore
      have hroom : pool.size < UInt32.size := hpool.size ▸ hpool.length_lt
      refine .inr (UInt32.toNat_inj.mp ?_)
      show id.toNat = pool.size.toUInt32.toNat
      rw [UInt32.toNat_ofNat_of_lt' hroom]
      omega

/-- If a string fills the buffer to the last offset that 32 bits can tell, the next new string is
read at the beginning of the buffer. -/
theorem get?_internWith_of_full (hpool : pool.Holds digest texts) {filler : Bytes}
    (hfiller : filler ∉ texts) (hfull : pool.bytesUsed + filler.length = UInt32.size)
    (hshort : filler.length < UInt32.size) (hcount : texts.length + 1 < UInt32.size)
    (htext : text ∉ texts) (hne : text ≠ filler) (hlength : text.length < UInt32.size) :
    let full := (pool.internWith digest filler).1
    (full.internWith digest text).1.get? (full.internWith digest text).2 =
      some ((texts.flatten ++ filler ++ text).take text.length) := by
  intro full
  have hnew : pool.internWith digest filler = pool.add digest filler := by
    rw [internWith, hpool.findWith?_eq, if_neg hfiller]
  have hadd : full = (pool.add digest filler).1 := congrArg Prod.fst hnew
  have hown : full.get? (pool.add digest filler).2 = some filler := by
    have := (hpool.get?_internWith_iff filler).mpr hshort
    rwa [hnew, ← hadd] at this
  have hempty : full.get? emptyId = some [] := hadd ▸ get?_add hpool.get?_emptyId
  have hroom : full.size < UInt32.size := by
    rw [hadd, size_add, hpool.size]
    exact hcount
  have hused : full.bytesUsed = UInt32.size := by rw [hadd, bytesUsed_add, hfull]
  have hbytes : full.bytes.data.toList = texts.flatten ++ filler := by
    rw [hadd, toList_bytes_add, hpool.bytes]
  have hmissing : full.findWith? digest text = none := by
    rw [Option.eq_none_iff_forall_ne_some]
    intro id hfound
    have hnonempty : text ≠ [] := fun heq => htext (heq ▸ List.mem_of_head? hpool.head)
    have hid := get?_of_findWith? hnonempty hfound
    rw [hadd] at hid
    obtain hbefore | rfl := hpool.get?_add_cases hid
    · exact htext (hpool.mem_of_get? hbefore)
    · rw [← hadd, hown] at hid
      exact hne (Option.some.inj hid).symm
  rw [get?_internWith_snd hempty hroom, hmissing, hused, hbytes, Nat.mod_self,
    Nat.mod_eq_of_lt hlength]
  rfl

end Holds

/-! ## Many calls -/

/-- Interning keeps what an identifier denotes, at any size.  As long as an identifier fits into 32
bits, a string that is found is given back, and the others are read in the buffer at their offset
modulo 2 ^ 32 with their length modulo 2 ^ 32.  So if the strings before it have fewer than 2 ^ 32
bytes, a string is given back exactly if it has fewer than 2 ^ 32 bytes. -/
theorem internEach_narrowed (digest : Bytes → UInt64) (strings bytes : Nat) (texts : List Bytes) :
    let pool := ((sized strings bytes).internEach digest texts).1
    (∀ more id known, pool.get? id = some known →
        (pool.internEach digest more).1.get? id = some known) ∧
      (pool.size < UInt32.size → ∀ text,
        (pool.internWith digest text).1.get? (pool.internWith digest text).2 =
          if (pool.findWith? digest text).isSome then some text
          else some (((pool.bytes.data.toList ++ text).drop (pool.bytesUsed % UInt32.size)).take
            (text.length % UInt32.size))) ∧
      (((distinct texts).map List.length).sum < UInt32.size → ∀ text,
        ((pool.internWith digest text).1.get? (pool.internWith digest text).2 = some text ↔
          text.length < UInt32.size)) := by
  intro pool
  have hnew := sized_holds digest strings bytes
  refine ⟨fun _ _ _ hknown => get?_internEach_of_get? hknown, fun hroom text => ?_, fun hsmall => ?_⟩
  · exact get?_internWith_snd (get?_internEach_of_get? hnew.get?_emptyId) hroom
  · rw [← foldl_remember_eq_distinct, ← List.length_flatten] at hsmall
    exact (hnew.internEach hsmall).get?_internWith_iff

/-- Behind `a` the string `ba` is given back, and `a` is denoted as before. -/
theorem internEach_narrowed_two :
    let pool := ((sized 0 0).internEach Pool.digest [[0x61]]).1
    pool.get? 1 = some [0x61] ∧
      (pool.internEach Pool.digest [[0x62, 0x61], []]).1.get? 1 = some [0x61] ∧
      pool.size < UInt32.size ∧
      (pool.internWith Pool.digest [0x62, 0x61]).1.get?
        (pool.internWith Pool.digest [0x62, 0x61]).2 = some [0x62, 0x61] := by
  intro pool
  obtain ⟨hkept, -, hback⟩ := internEach_narrowed Pool.digest 0 0 [[0x61]]
  have hpool : pool.Holds Pool.digest [[], [0x61]] :=
    (sized_holds Pool.digest 0 0).internEach (by decide)
  have hknown : pool.get? 1 = some [0x61] := hpool.get?_eq 1
  have hroom : pool.size < UInt32.size := hpool.size ▸ by decide
  exact ⟨hknown, hkept _ 1 _ hknown, hroom, (hback (by decide) _).mpr (by decide)⟩

/-! ## A wrapped offset -/

/-- Strings that are new and differ from each other are remembered one behind the other. -/
theorem foldl_remember_of_nodup {known : List Bytes} (hnodup : (known ++ texts).Nodup) :
    texts.foldl remember known = known ++ texts := by
  induction texts generalizing known with
  | nil => rw [List.foldl_nil, List.append_nil]
  | cons text rest ih =>
      have hnew : text ∉ known := by
        have hapart := (List.nodup_append.mp hnodup).2.2
        exact fun hknown => hapart text hknown text List.mem_cons_self rfl
      have hfirst : remember known text = known ++ [text] := if_neg hnew
      rw [← List.singleton_append, ← List.append_assoc] at hnodup
      rw [List.foldl_cons, hfirst, ih hnodup, List.append_assoc, List.singleton_append]

theorem internEach_of_nodup (digest : Bytes → UInt64) (hnodup : ([] :: texts).Nodup)
    (hsmall : texts.flatten.length < UInt32.size) :
    (empty.internEach digest texts).1.Holds digest ([] :: texts) := by
  have hlist : texts.foldl remember [[]] = [] :: texts := foldl_remember_of_nodup hnodup
  have hsum : (texts.foldl remember [[]]).flatten.length < UInt32.size := by
    rwa [hlist, List.flatten_cons, List.nil_append]
  exact hlist ▸ (empty_holds digest).internEach hsum

theorem internEach_concat (digest : Bytes → UInt64) (pool : Pool) (texts : List Bytes)
    (text : Bytes) : (pool.internEach digest (texts ++ [text])).1 =
      ((pool.internEach digest texts).1.internWith digest text).1 := by
  rw [internEach_append]
  rfl

/-- A padding behind two bytes that tell 2 ^ 12 numbers apart. -/
def filler (padding : Bytes) (number : Nat) : Bytes :=
  (0x30 + number / 64).toUInt8 :: (0x30 + number % 64).toUInt8 :: padding

section Fillers

variable {padding : Bytes}

theorem filler_inj {first second : Nat} (hfirst : first < 4096) (hsecond : second < 4096)
    (heq : filler padding first = filler padding second) : first = second := by
  obtain ⟨hhigh, htail⟩ := List.cons.inj heq
  have hhigh := congrArg UInt8.toNat hhigh
  have hlow := congrArg UInt8.toNat (List.cons.inj htail).1
  simp only [Nat.toUInt8, UInt8.toNat_ofNat'] at hhigh hlow
  omega

theorem nodup_fillers (padding : Bytes) : ((List.range 4096).map (filler padding)).Nodup :=
  List.nodup_range.map_on fun _ hfirst _ hsecond heq =>
    filler_inj (List.mem_range.mp hfirst) (List.mem_range.mp hsecond) heq

theorem length_flatten_fillers (padding : Bytes) (numbers : List Nat) :
    (numbers.map (filler padding)).flatten.length = numbers.length * (padding.length + 2) := by
  induction numbers with
  | nil => simp
  | cons number rest ih =>
      rw [List.map_cons, List.flatten_cons, List.length_append, ih, List.length_cons,
        Nat.succ_mul, Nat.add_comm]
      rfl

/-- Behind 2 ^ 32 bytes of fillers the next string is read at the beginning of the buffer. -/
theorem get?_internWith_behind_fillers (digest : Bytes → UInt64)
    (hpadding : padding.length = 0xffffe) :
    let full := (empty.internEach digest ((List.range 4096).map (filler padding))).1
    (full.internWith digest [0x76]).1.get? (full.internWith digest [0x76]).2 = some [0x30] := by
  have hsize : UInt32.size = 4095 * 0x100000 + 0x100000 := rfl
  have hrange : List.range 4096 = List.range 4095 ++ [4095] := List.range_succ
  have hstart : List.range 4095 = 0 :: (List.range 4094).map Nat.succ := List.range_succ_eq_map
  have hnodup : ([] :: (List.range 4096).map (filler padding)).Nodup :=
    List.nodup_cons.mpr ⟨by simp [filler], nodup_fillers padding⟩
  rw [hrange, List.map_append, List.map_singleton] at hnodup ⊢
  generalize hfront : (List.range 4095).map (filler padding) = front at hnodup ⊢
  have hused : front.flatten.length = 4095 * 0x100000 := by
    rw [← hfront, length_flatten_fillers, List.length_range, hpadding]
  have hpool : (empty.internEach digest front).1.Holds digest ([] :: front) :=
    internEach_of_nodup digest (List.nodup_append.mp hnodup).1 (by omega)
  have hlast : (filler padding 4095).length = 0x100000 := by
    rw [filler, List.length_cons, List.length_cons, hpadding]
  have hfull : (empty.internEach digest front).1.bytesUsed + (filler padding 4095).length =
      UInt32.size := by
    rw [← hpool.length_flatten, List.flatten_cons, List.nil_append, hused, hlast, hsize]
  have hnew : filler padding 4095 ∉ [] :: front := fun hmember =>
    (List.nodup_append.mp hnodup).2.2 _ hmember _ (List.mem_singleton_self _) rfl
  have htext : [0x76] ∉ [] :: front := by simp [← hfront, filler]
  have hne : [0x76] ≠ filler padding 4095 := by simp [filler]
  have hcount : ([] :: front).length + 1 < UInt32.size := by
    rw [List.length_cons, ← hfront, List.length_map, List.length_range]
    decide
  have hread := hpool.get?_internWith_of_full hnew hfull (by omega) hcount htext hne (by decide)
  obtain ⟨rest, hrest⟩ : ∃ rest, ([] :: front).flatten = 0x30 :: rest := by
    rw [← hfront, hstart, List.map_cons]
    exact ⟨_, rfl⟩
  rw [hrest] at hread
  rw [internEach_concat]
  exact hread

end Fillers

/-- After 2 ^ 12 strings of 2 ^ 20 bytes each the name `v` is interned, and its identifier denotes
the name `0`. -/
theorem intern_behind_fillers :
    let padding := List.replicate 0xffffe 0x61
    let full := (empty.internEach Pool.digest ((List.range 4096).map (filler padding))).1
    (full.intern [0x76]).1.get? (full.intern [0x76]).2 = some [0x30] ∧
      (full.intern [0x76]).1.get? (full.intern [0x76]).2 ≠ some [0x76] := by
  intro padding
  have hread := get?_internWith_behind_fillers Pool.digest
    (List.length_replicate : padding.length = 0xffffe)
  -- The pool is too long to be computed, so it is forgotten as soon as it is known what is read.
  generalize (empty.internEach Pool.digest ((List.range 4096).map (filler padding))).1 = full
    at hread ⊢
  have hread : (full.intern [0x76]).1.get? (full.intern [0x76]).2 = some [0x30] := hread
  exact ⟨hread, by rw [hread]; decide⟩

end VersionedXml.Pool
