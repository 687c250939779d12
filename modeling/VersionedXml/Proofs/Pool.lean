import Mathlib.Data.List.Nodup
import Mathlib.Data.List.Perm.Subperm
import VersionedXml.Pool

/-!
# What a pool holds

A pool is a list of distinct strings, the empty one first, each of which is named by its place.  As
long as all strings together have fewer bytes than 32 bits can count, offsets, lengths and
identifiers are exact, and the list says everything about the pool, whatever the digest is.
-/

namespace VersionedXml.Pool

/-- A pool holds exactly the strings `texts`, each under its place in the list. -/
structure Holds (digest : Bytes → UInt64) (pool : Pool) (texts : List Bytes) : Prop where
  head : texts.head? = some []
  nodup : texts.Nodup
  small : pool.bytesUsed < UInt32.size
  /-- The strings lie one behind the other. -/
  bytes : pool.bytes.data.toList = texts.flatten
  size : pool.size = texts.length
  extents : ∀ {index : Nat} {text : Bytes}, texts[index]? = some text →
    pool.extents[index]? =
      some ⟨(texts.take index).flatten.length.toUInt32, text.length.toUInt32⟩
  /-- The index proposes the strings with the asked digest, and no others. -/
  bucket : ∀ {key : UInt64} {id : StrId}, id ∈ pool.bucket key ↔
    ∃ index text, 0 < index ∧ texts[index]? = some text ∧ digest text = key ∧
      id = index.toUInt32

def remember (texts : List Bytes) (text : Bytes) : List Bytes :=
  if text ∈ texts then texts else texts ++ [text]

/-- A new pool holds the empty string, whatever room is set aside for others. -/
theorem sized_holds (digest : Bytes → UInt64) (strings bytes : Nat) :
    (sized strings bytes).Holds digest [[]] := by
  refine ⟨rfl, List.nodup_singleton [], (by decide : 0 < UInt32.size), rfl, rfl, ?_, ?_⟩
  · intro index text htext
    cases index with
    | zero =>
        cases htext
        rfl
    | succ index => simp at htext
  · intro key id
    have hempty : (sized strings bytes).bucket key = [] := by simp [bucket, sized]
    rw [hempty]
    constructor
    · intro hid
      cases hid
    · rintro ⟨index, text, hindex, htext, -, -⟩
      have hle : [([] : Bytes)].length ≤ index := hindex
      rw [List.getElem?_eq_none hle] at htext
      cases htext

theorem empty_holds (digest : Bytes → UInt64) : empty.Holds digest [[]] :=
  sized_holds digest 256 4096

theorem two_mul_length_le (texts : List Bytes) : 2 * texts.length ≤
    texts.flatten.length + 2 * (texts.filter fun text => text.length ≤ 1).length := by
  induction texts with
  | nil => simp
  | cons text texts ih =>
      rw [List.filter_cons, List.flatten_cons, List.length_append, List.length_cons]
      split
      · rw [List.length_cons]
        omega
      · rename_i hlong
        have htwo : 1 < text.length := by simpa using hlong
        omega

theorem length_short_le {texts : List Bytes} (hnodup : texts.Nodup) :
    (texts.filter fun text => text.length ≤ 1).length ≤ 257 := by
  have hfew : (texts.filter fun text => text.length ≤ 1) ⊆
      [] :: (List.range 256).map fun number => [number.toUInt8] := by
    intro text htext
    have hle : text.length ≤ 1 := by simpa using (List.mem_filter.mp htext).2
    match text with
    | [] => exact List.mem_cons_self
    | [byte] =>
        refine List.mem_cons_of_mem _ (List.mem_map.mpr ⟨byte.toNat, ?_, by simp⟩)
        exact List.mem_range.mpr byte.toNat_lt
    | _ :: _ :: _ => simp at hle
  simpa using (List.subperm_of_subset (hnodup.filter _) hfew).length_le

namespace Holds

variable {digest : Bytes → UInt64} {pool : Pool} {texts : List Bytes}

theorem length_flatten (hpool : pool.Holds digest texts) :
    texts.flatten.length = pool.bytesUsed := by
  rw [← hpool.bytes]
  rfl

/-- All strings but the first have bytes, so there are not too many of them. -/
theorem length_le (hpool : pool.Holds digest texts) : texts.length ≤ pool.bytesUsed + 1 := by
  have hhead := hpool.head
  have hnodup := hpool.nodup
  rw [← hpool.length_flatten]
  cases texts with
  | nil => cases hhead
  | cons first rest =>
      cases (show some first = some [] from hhead)
      have hrest : ∀ {more : List Bytes}, [] ∉ more → more.length ≤ more.flatten.length := by
        intro more hmore
        induction more with
        | nil => simp
        | cons text more ih =>
            have htext : text ≠ [] := fun heq => hmore (heq ▸ List.mem_cons_self)
            have hlength := ih fun hmember => hmore (List.mem_cons_of_mem text hmember)
            have hpos := List.length_pos_iff.mpr htext
            simp only [List.length_cons, List.flatten_cons, List.length_append]
            omega
      have := hrest (List.nodup_cons.mp hnodup).1
      simpa using this

/-- There is room for one more identifier, even where its string has none. -/
theorem length_lt (hpool : pool.Holds digest texts) : texts.length < UInt32.size := by
  have hlong := two_mul_length_le texts
  have hshort := length_short_le hpool.nodup
  have hsmall := hpool.small
  rw [hpool.length_flatten] at hlong
  have hsize : UInt32.size = 4294967296 := rfl
  omega

theorem toNat_toUInt32 (hpool : pool.Holds digest texts) {index : Nat}
    (hindex : index < texts.length) : index.toUInt32.toNat = index := by
  have := hpool.length_le
  have := hpool.small
  exact UInt32.toNat_ofNat_of_lt' (by omega)

/-- A string is found under its place. -/
theorem get?_eq (hpool : pool.Holds digest texts) (id : StrId) :
    pool.get? id = texts[id.toNat]? := by
  unfold get?
  cases htext : texts[id.toNat]? with
  | none =>
      have hle : pool.extents.size ≤ id.toNat := by
        have hsize : pool.extents.size = texts.length := hpool.size
        rw [hsize]
        exact List.getElem?_eq_none_iff.mp htext
      rw [Array.getElem?_eq_none hle]
      rfl
  | some text =>
      rw [hpool.extents htext, Option.bind_some]
      obtain ⟨hindex, heq⟩ := List.getElem?_eq_some_iff.mp htext
      have hsplit : texts.flatten =
          (texts.take id.toNat).flatten ++ (text ++ (texts.drop (id.toNat + 1)).flatten) := by
        rw [← List.flatten_cons, ← List.flatten_append, ← heq, ← List.drop_eq_getElem_cons,
          List.take_append_drop]
      have hlength := congrArg List.length hsplit
      have hused := hpool.length_flatten
      have hsmall := hpool.small
      simp only [List.length_append] at hlength
      have hoffset : (texts.take id.toNat).flatten.length.toUInt32.toNat =
          (texts.take id.toNat).flatten.length := UInt32.toNat_ofNat_of_lt' (by omega)
      have hextent : text.length.toUInt32.toNat = text.length :=
        UInt32.toNat_ofNat_of_lt' (by omega)
      simp only [read?, hoffset, hextent]
      rw [if_pos (by unfold bytesUsed at hused; omega), ByteArray.data_extract,
        Array.toList_extract, hpool.bytes, hsplit]
      simp [List.extract_eq_take_drop]

theorem get?_inj (hpool : pool.Holds digest texts) {first second : StrId} {text : Bytes}
    (hfirst : pool.get? first = some text) (hsecond : pool.get? second = some text) :
    first = second := by
  rw [hpool.get?_eq] at hfirst hsecond
  obtain ⟨hindex, -⟩ := List.getElem?_eq_some_iff.mp hfirst
  exact UInt32.toNat_inj.mp
    ((List.getElem?_inj hindex hpool.nodup).mp (hfirst.trans hsecond.symm))

theorem mem_of_get? (hpool : pool.Holds digest texts) {id : StrId} {text : Bytes}
    (hid : pool.get? id = some text) : text ∈ texts := by
  rw [hpool.get?_eq] at hid
  exact List.mem_of_getElem? hid

theorem get?_idxOf (hpool : pool.Holds digest texts) {text : Bytes} (htext : text ∈ texts) :
    pool.get? (texts.idxOf text).toUInt32 = some text := by
  rw [hpool.get?_eq, hpool.toNat_toUInt32 (List.idxOf_lt_length_of_mem htext)]
  exact List.getElem?_idxOf htext

/-- A string is found exactly if it is held. -/
theorem findWith?_eq (hpool : pool.Holds digest texts) (text : Bytes) :
    pool.findWith? digest text =
      if text ∈ texts then some (texts.idxOf text).toUInt32 else none := by
  have hhead : ∃ rest, texts = [] :: rest := by
    have hfirst := hpool.head
    cases texts with
    | nil => cases hfirst
    | cons first rest =>
        cases (show some first = some [] from hfirst)
        exact ⟨rest, rfl⟩
  unfold findWith?
  split
  · rename_i hempty
    rw [List.isEmpty_iff] at hempty
    obtain ⟨rest, rfl⟩ := hhead
    simp [hempty, emptyId]
  · rename_i hne
    split
    · rename_i htext
      have hfound : texts[texts.idxOf text]? = some text := List.getElem?_idxOf htext
      have hget := hpool.get?_idxOf htext
      have hpos : 0 < texts.idxOf text := by
        obtain ⟨rest, rfl⟩ := hhead
        have : ([] : Bytes) ≠ text := fun heq => hne (by simp [← heq])
        rw [List.idxOf_cons_ne _ this]
        omega
      have hmember : (texts.idxOf text).toUInt32 ∈ pool.bucket (digest text) :=
        hpool.bucket.mpr ⟨_, text, hpos, hfound, rfl, rfl⟩
      cases hsearch : (pool.bucket (digest text)).find? fun id => pool.get? id == some text with
      | none =>
          have := List.find?_eq_none.mp hsearch _ hmember
          simp [hget] at this
      | some id =>
          have hid : pool.get? id = some text := by simpa using List.find?_some hsearch
          rw [hpool.get?_inj hid hget]
    · rename_i htext
      rw [List.find?_eq_none]
      intro id _ hid
      exact htext (hpool.mem_of_get? (by simpa using hid))

/-- A string is found under the identifier that denotes it, and under no other. -/
theorem findWith?_eq_some_iff (hpool : pool.Holds digest texts) {text : Bytes} {id : StrId} :
    pool.findWith? digest text = some id ↔ pool.get? id = some text := by
  rw [hpool.findWith?_eq]
  constructor
  · intro hid
    split at hid
    · rename_i htext
      rw [← Option.some.inj hid]
      exact hpool.get?_idxOf htext
    · cases hid
  · intro hid
    have htext := hpool.mem_of_get? hid
    rw [if_pos htext, hpool.get?_inj (hpool.get?_idxOf htext) hid]

end Holds

theorem toList_bytes_add (digest : Bytes → UInt64) (pool : Pool) (text : Bytes) :
    (pool.add digest text).1.bytes.data.toList = pool.bytes.data.toList ++ text := by
  simp [add]

theorem bytesUsed_add (digest : Bytes → UInt64) (pool : Pool) (text : Bytes) :
    (pool.add digest text).1.bytesUsed = pool.bytesUsed + text.length := by
  have hbytes := congrArg List.length (toList_bytes_add digest pool text)
  rwa [List.length_append, Array.length_toList, Array.length_toList] at hbytes

/-- The index of an enlarged pool proposes the new string behind all others. -/
theorem mem_bucket_add {digest : Bytes → UInt64} {pool : Pool} {text : Bytes} {key : UInt64}
    {id : StrId} :
    id ∈ (pool.add digest text).1.bucket key ↔
      id ∈ pool.bucket key ∨ (digest text = key ∧ id = pool.size.toUInt32) := by
  simp only [add, bucket, Std.HashMap.getD_insert]
  by_cases hkey : digest text = key
  · simp [hkey]
  · simp [hkey]

theorem getElem?_concat_eq_some_iff {texts : List Bytes} {text found : Bytes} {index : Nat} :
    (texts ++ [text])[index]? = some found ↔
      texts[index]? = some found ∨ (index = texts.length ∧ text = found) := by
  grind

/-- Adding a string that is not there yet puts it behind all others. -/
theorem add_holds {digest : Bytes → UInt64} {pool : Pool} {texts : List Bytes} {text : Bytes}
    (hpool : pool.Holds digest texts) (htext : text ∉ texts)
    (hsmall : pool.bytesUsed + text.length < UInt32.size) :
    (pool.add digest text).1.Holds digest (texts ++ [text]) := by
  have hsize : pool.extents.size = texts.length := hpool.size
  have hpos : 0 < texts.length := List.length_pos_of_mem (List.mem_of_head? hpool.head)
  have hhead : (texts ++ [text]).head? = some [] := by
    rw [List.head?_append, hpool.head]
    rfl
  refine ⟨hhead, ?_, ?_, ?_, ?_, ?_, ?_⟩
  · exact List.nodup_append.mpr ⟨hpool.nodup, List.nodup_singleton text, fun x hx y hy heq =>
      htext (List.mem_singleton.mp hy ▸ heq ▸ hx)⟩
  · rw [bytesUsed_add]
    exact hsmall
  · rw [toList_bytes_add, hpool.bytes, List.flatten_append, List.flatten_singleton]
  · simp [add, size, hsize]
  · intro index found hfound
    simp only [add]
    rw [Array.getElem?_push, hsize]
    rcases getElem?_concat_eq_some_iff.mp hfound with hfound | ⟨rfl, rfl⟩
    · have hlt := (List.getElem?_eq_some_iff.mp hfound).1
      rw [if_neg (Nat.ne_of_lt hlt), hpool.extents hfound,
        List.take_append_of_le_length (Nat.le_of_lt hlt)]
    · rw [if_pos rfl, List.take_left, hpool.length_flatten]
      rfl
  · intro key id
    simp only [mem_bucket_add, hpool.bucket, hpool.size, getElem?_concat_eq_some_iff]
    constructor
    · rintro (⟨index, found, hindex, hfound, hkey, hid⟩ | ⟨hkey, hid⟩)
      · exact ⟨index, found, hindex, .inl hfound, hkey, hid⟩
      · exact ⟨texts.length, text, hpos, .inr ⟨rfl, rfl⟩, hkey, hid⟩
    · rintro ⟨index, found, hindex, hfound | ⟨rfl, rfl⟩, hkey, hid⟩
      · exact .inl ⟨index, found, hindex, hfound, hkey, hid⟩
      · exact .inr ⟨hkey, hid⟩

/-! ## Growing -/

section Grow

variable {digest : Bytes → UInt64} {pool : Pool} {text : Bytes}

theorem length_toList_bytes (pool : Pool) : pool.bytes.data.toList.length = pool.bytesUsed := rfl

theorem read?_eq (pool : Pool) (extent : Extent) :
    pool.read? extent =
      if extent.offset.toNat + extent.length.toNat ≤ pool.bytesUsed then
        some ((pool.bytes.data.toList.drop extent.offset.toNat).take extent.length.toNat)
      else none := by
  unfold bytesUsed
  simp [read?, List.extract_eq_take_drop]

/-- What an extent denotes does not depend on the bytes behind it. -/
theorem read?_add {extent : Extent} {known : Bytes} (hread : pool.read? extent = some known) :
    (pool.add digest text).1.read? extent = some known := by
  rw [read?_eq] at hread ⊢
  split at hread
  · rename_i hfits
    have hlength := pool.length_toList_bytes
    rw [bytesUsed_add, if_pos (Nat.le_add_right_of_le hfits), toList_bytes_add,
      List.drop_append_of_le_length (by omega),
      List.take_append_of_le_length (by rw [List.length_drop]; omega)]
    exact hread
  · cases hread

/-- What an identifier denotes does not depend on the strings behind it. -/
theorem get?_add {id : StrId} {known : Bytes} (hknown : pool.get? id = some known) :
    (pool.add digest text).1.get? id = some known := by
  obtain ⟨extent, hextent, hread⟩ := Option.bind_eq_some_iff.mp hknown
  have hlt := (Array.getElem?_eq_some_iff.mp hextent).1
  refine Option.bind_eq_some_iff.mpr ⟨extent, ?_, read?_add hread⟩
  show (pool.extents.push _)[id.toNat]? = some extent
  rw [Array.getElem?_push_lt hlt, ← hextent, Array.getElem?_eq_getElem hlt]

theorem get?_internWith_of_get? {id : StrId} {known : Bytes} (hknown : pool.get? id = some known) :
    (pool.internWith digest text).1.get? id = some known := by
  unfold internWith
  split
  · exact hknown
  · exact get?_add hknown

end Grow

/-! ## Interning -/

/-- Interning never shortens the buffer, and lengthens it by the string at most. -/
theorem bytesUsed_internWith (digest : Bytes → UInt64) (pool : Pool) (text : Bytes) :
    pool.bytesUsed ≤ (pool.internWith digest text).1.bytesUsed ∧
      (pool.internWith digest text).1.bytesUsed ≤ pool.bytesUsed + text.length := by
  unfold internWith
  split
  · exact ⟨Nat.le_refl _, Nat.le_add_right _ _⟩
  · rw [bytesUsed_add]
    exact ⟨Nat.le_add_right _ _, Nat.le_refl _⟩

section Intern

variable {digest : Bytes → UInt64} {pool : Pool} {texts : List Bytes} {text : Bytes}

/-- After interning, the string is held, and all others are held under the same identifiers. -/
theorem internWith_holds (hpool : pool.Holds digest texts)
    (hsmall : (pool.internWith digest text).1.bytesUsed < UInt32.size) :
    (pool.internWith digest text).1.Holds digest (remember texts text) := by
  unfold internWith remember at *
  rw [hpool.findWith?_eq] at *
  by_cases htext : text ∈ texts
  · simp only [if_pos htext]
    exact hpool
  · simp only [if_neg htext] at *
    rw [bytesUsed_add] at hsmall
    exact add_holds hpool htext hsmall

theorem get?_internWith (hpool : pool.Holds digest texts)
    (hsmall : (pool.internWith digest text).1.bytesUsed < UInt32.size) :
    (pool.internWith digest text).1.get? (pool.internWith digest text).2 = some text := by
  have hafter := internWith_holds hpool hsmall
  rw [hafter.get?_eq]
  unfold internWith remember at *
  rw [hpool.findWith?_eq] at *
  by_cases htext : text ∈ texts
  · simp only [if_pos htext]
    rw [hpool.toNat_toUInt32 (List.idxOf_lt_length_of_mem htext)]
    exact List.getElem?_idxOf htext
  · simp only [if_neg htext, add, hpool.size] at *
    rw [hafter.toNat_toUInt32 (by simp)]
    exact List.getElem?_concat_length

end Intern

end VersionedXml.Pool
