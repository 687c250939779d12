import VersionedXml.Proofs.Pool
import VersionedXml.Proofs.Tree.Growth

/-!
# Interning strings one after the other

Strings are interned in any order, and the same string may come again.  The pool then lists the empty
string and behind it the others, each once, in the order in which they came first.  An identifier is
a place in this list, and it never changes its meaning.  Nothing of this depends on the digest: if
all strings had the same one, the answers would be the same.
-/

namespace VersionedXml.Pool

/-! ## Distinct strings -/

variable {digest : Bytes → UInt64} {pool : Pool} {known texts : List Bytes}

theorem mem_remember {text other : Bytes} :
    other ∈ remember known text ↔ other ∈ known ∨ other = text := by
  unfold remember
  split
  · rename_i htext
    constructor
    · exact .inl
    · rintro (hother | rfl)
      · exact hother
      · exact htext
  · simp

theorem mem_foldl_remember {text : Bytes} :
    text ∈ texts.foldl remember known ↔ text ∈ known ∨ text ∈ texts := by
  induction texts generalizing known with
  | nil => simp
  | cons first rest ih => rw [List.foldl_cons, ih, mem_remember, List.mem_cons, or_assoc]

theorem known_prefix_foldl_remember (known texts : List Bytes) :
    known <+: texts.foldl remember known := by
  induction texts generalizing known with
  | nil => exact List.prefix_refl known
  | cons text rest ih =>
      refine List.IsPrefix.trans ?_ (ih (remember known text))
      unfold remember
      split
      · exact List.prefix_refl known
      · exact List.prefix_append known [text]

/-- Strings that are remembered behind the empty one have their bytes once each. -/
theorem length_flatten_foldl_remember (texts : List Bytes) :
    (texts.foldl remember [[]]).flatten.length = (texts.eraseDups.map List.length).sum := by
  induction texts using List.reverseRecOn with
  | nil => rfl
  | append_singleton texts text ih =>
      rw [List.foldl_append, List.foldl_cons, List.foldl_nil, eraseDups_concat, remember]
      by_cases htext : text ∈ texts
      · rw [if_pos (mem_foldl_remember.mpr (.inr htext)), if_pos htext, ih]
      · rw [if_neg htext]
        -- The empty string is held from the start, and it takes no bytes.
        by_cases hempty : text = []
        · rw [if_pos (mem_foldl_remember.mpr (.inl (by simp [hempty]))), ih]
          simp [hempty]
        · have hnew : text ∉ texts.foldl remember [[]] := by
            rw [mem_foldl_remember]
            simp [hempty, htext]
          rw [if_neg hnew, List.flatten_append, List.length_append, ih]
          simp

theorem length_flatten_le_foldl_remember (texts : List Bytes) :
    known.flatten.length ≤ (texts.foldl remember known).flatten.length := by
  obtain ⟨more, hmore⟩ := known_prefix_foldl_remember known texts
  rw [← hmore, List.flatten_append, List.length_append]
  exact Nat.le_add_right _ _

/-- The empty string, and behind it the other strings, each where it comes first. -/
def distinct (texts : List Bytes) : List Bytes :=
  [] :: (texts.filter (· != [])).eraseDups

/-- Remembering strings keeps each of them where it comes first. -/
theorem foldl_remember_eraseDups (known texts : List Bytes) :
    texts.foldl remember known.eraseDups = (known ++ texts).eraseDups := by
  induction texts generalizing known with
  | nil => simp
  | cons text rest ih =>
      have hfirst : remember known.eraseDups text = (known ++ [text]).eraseDups := by
        rw [eraseDups_concat]
        simp only [remember, List.mem_eraseDups]
      rw [List.foldl_cons, hfirst, ih, List.append_assoc, List.singleton_append]

theorem foldl_remember_eq_distinct (texts : List Bytes) :
    texts.foldl remember [[]] = distinct texts := by
  rw [show ([[]] : List Bytes) = [[]].eraseDups from rfl, foldl_remember_eraseDups,
    List.singleton_append, List.eraseDups_cons]
  rfl

/-! ## One call -/

namespace Holds

/-- Interning takes the bytes of a string that is not held yet. -/
theorem bytesUsed_internWith (hpool : pool.Holds digest known) (text : Bytes) :
    (pool.internWith digest text).1.bytesUsed = (remember known text).flatten.length := by
  unfold internWith remember
  rw [hpool.findWith?_eq]
  by_cases htext : text ∈ known
  · simp only [if_pos htext]
    exact hpool.length_flatten.symm
  · simp only [if_neg htext, bytesUsed_add, ← hpool.length_flatten]
    simp

/-- If there is room for many strings, there is room for the first of them. -/
theorem bytesUsed_internWith_lt (hpool : pool.Holds digest known) {text : Bytes}
    (hsmall : (texts.foldl remember (remember known text)).flatten.length < UInt32.size) :
    (pool.internWith digest text).1.bytesUsed < UInt32.size := by
  rw [hpool.bytesUsed_internWith]
  exact Nat.lt_of_le_of_lt (length_flatten_le_foldl_remember texts) hsmall

theorem toNat_eq_idxOf (hpool : pool.Holds digest known) {id : StrId} {text : Bytes}
    (hid : pool.get? id = some text) : id.toNat = known.idxOf text := by
  have htext := hpool.mem_of_get? hid
  rw [hpool.get?_inj hid (hpool.get?_idxOf htext)]
  exact hpool.toNat_toUInt32 (List.idxOf_lt_length_of_mem htext)

/-- The identifiers from 0 on denote the strings, one after the other. -/
theorem map_get?_range (hpool : pool.Holds digest known) :
    ((List.range pool.size).map fun index => pool.get? index.toUInt32) = known.map some := by
  apply List.ext_getElem?
  intro index
  rw [List.getElem?_map, List.getElem?_map, hpool.size]
  by_cases hindex : index < known.length
  · rw [List.getElem?_range hindex, Option.map_some, hpool.get?_eq,
      hpool.toNat_toUInt32 hindex, List.getElem?_eq_getElem hindex, Option.map_some]
  · rw [List.getElem?_eq_none (by simpa using hindex),
      List.getElem?_eq_none (by simpa using hindex)]
    rfl

end Holds

/-! ## Many calls -/

def internEach (digest : Bytes → UInt64) : Pool → List Bytes → Pool × List StrId
  | pool, [] => (pool, [])
  | pool, text :: rest =>
      let first := pool.internWith digest text
      let others := internEach digest first.1 rest
      (others.1, first.2 :: others.2)

theorem internEach_append (digest : Bytes → UInt64) (pool : Pool) (left right : List Bytes) :
    (pool.internEach digest (left ++ right)).1 =
      ((pool.internEach digest left).1.internEach digest right).1 := by
  induction left generalizing pool with
  | nil => rfl
  | cons text rest ih => exact ih (pool.internWith digest text).1

theorem get?_internEach_of_get? {id : StrId} {known : Bytes} (hknown : pool.get? id = some known) :
    (pool.internEach digest texts).1.get? id = some known := by
  induction texts generalizing pool with
  | nil => exact hknown
  | cons text rest ih => exact ih (get?_internWith_of_get? hknown)

namespace Holds

theorem internEach (hpool : pool.Holds digest known)
    (hsmall : (texts.foldl remember known).flatten.length < UInt32.size) :
    (pool.internEach digest texts).1.Holds digest (texts.foldl remember known) := by
  induction texts generalizing pool known with
  | nil => exact hpool
  | cons text rest ih =>
      exact ih (internWith_holds hpool (hpool.bytesUsed_internWith_lt hsmall)) hsmall

/-- Every call answers with the place that the string has in the end. -/
theorem toNat_internEach (hpool : pool.Holds digest known)
    (hsmall : (texts.foldl remember known).flatten.length < UInt32.size) :
    (pool.internEach digest texts).2.map UInt32.toNat =
      texts.map (texts.foldl remember known).idxOf := by
  induction texts generalizing pool known with
  | nil => rfl
  | cons text rest ih =>
      have hfirst := hpool.bytesUsed_internWith_lt hsmall
      have hafter := internWith_holds hpool hfirst
      have hmeaning : ((pool.internWith digest text).1.internEach digest rest).1.get?
          (pool.internWith digest text).2 = some text :=
        get?_internEach_of_get? (get?_internWith hpool hfirst)
      have hplace := (hafter.internEach hsmall).toNat_eq_idxOf hmeaning
      simp only [Pool.internEach, List.map_cons, List.foldl_cons, ih hafter hsmall, hplace]

end Holds

/-- Interning strings into a new pool lists the empty string and the distinct others in the order in
which they came first, under any digest and with room set aside for any number of strings.  Each call
answers with the place of its string in this list, and a string has a place exactly if it is empty or
has been interned.  What an identifier denotes after some of the calls it denotes after all of
them, identifiers behind the list denote nothing, and the buffer holds the listed bytes and no others. -/
theorem internEach_sized (digest : Bytes → UInt64) (strings bytes : Nat) (texts : List Bytes)
    (hsmall : ((distinct texts).map List.length).sum < UInt32.size) :
    let interned := (sized strings bytes).internEach digest texts
    ((List.range interned.1.size).map fun index => interned.1.get? index.toUInt32) =
        (distinct texts).map some ∧
      interned.2.map UInt32.toNat = texts.map (distinct texts).idxOf ∧
      (∀ before after, texts = before ++ after → ∀ id text,
        ((sized strings bytes).internEach digest before).1.get? id = some text →
          interned.1.get? id = some text) ∧
      (∀ text, interned.1.findWith? digest text =
        if text = [] ∨ text ∈ texts then some ((distinct texts).idxOf text).toUInt32 else none) ∧
      (∀ id : StrId, interned.1.size ≤ id.toNat → interned.1.get? id = none) ∧
      interned.1.bytesUsed = ((distinct texts).map List.length).sum := by
  intro interned
  have hempty := sized_holds digest strings bytes
  rw [← foldl_remember_eq_distinct, ← List.length_flatten] at hsmall
  have hpool : interned.1.Holds digest (texts.foldl remember [[]]) := hempty.internEach hsmall
  rw [← foldl_remember_eq_distinct, ← List.length_flatten]
  refine ⟨?_, hempty.toNat_internEach hsmall, ?_, ?_, ?_, hpool.length_flatten.symm⟩
  · exact hpool.map_get?_range
  · rintro before after rfl id text hid
    show (Pool.internEach digest _ (before ++ after)).1.get? id = some text
    rw [internEach_append]
    exact get?_internEach_of_get? hid
  · intro text
    rw [hpool.findWith?_eq]
    simp only [mem_foldl_remember, List.mem_singleton]
  · intro id hid
    rw [hpool.get?_eq]
    exact List.getElem?_eq_none (hpool.size ▸ hid)

/-- Four calls under a digest that tells no strings apart. -/
theorem internEach_sized_collision :
    ((distinct [[0x61], [0x62, 0x61], [], [0x61]]).map List.length).sum < UInt32.size ∧
      ((sized 0 0).internEach (fun _ => 7) [[0x61], [0x62, 0x61], [], [0x61]]).2.map UInt32.toNat =
        [1, 2, 0, 1] ∧
      ((sized 0 0).internEach (fun _ => 7) [[0x61], [0x62, 0x61], [], [0x61]]).1.findWith?
        (fun _ => 7) [0x63] = none := by
  have hsmall : ((distinct [[0x61], [0x62, 0x61], [], [0x61]]).map List.length).sum <
      UInt32.size := by
    decide
  obtain ⟨-, hplaces, -, hfind, -⟩ := internEach_sized (fun _ => 7) 0 0 _ hsmall
  exact ⟨hsmall, hplaces.trans (by decide), (hfind [0x63]).trans (by decide)⟩

end VersionedXml.Pool
