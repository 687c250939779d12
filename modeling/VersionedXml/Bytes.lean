/-!
# Bytes and buffers

Names, values and contents are byte strings.  They are never decoded: the markup characters that
matter are all ASCII, so a byte of a longer character is never mistaken for one of them.
-/

namespace VersionedXml

/-- A byte string: a name, a value, or a piece of content. -/
abbrev Bytes := List UInt8

/-- Bytes that are read at arbitrary offsets: an input, or a finished text. -/
abbrev Buffer := Array UInt8

/-! ## The bytes of the markup -/

namespace Byte

abbrev less : UInt8 := 0x3c

abbrev greater : UInt8 := 0x3e

abbrev slash : UInt8 := 0x2f

abbrev question : UInt8 := 0x3f

abbrev bang : UInt8 := 0x21

abbrev dash : UInt8 := 0x2d

abbrev openBracket : UInt8 := 0x5b

abbrev closeBracket : UInt8 := 0x5d

abbrev equals : UInt8 := 0x3d

abbrev doubleQuote : UInt8 := 0x22

abbrev singleQuote : UInt8 := 0x27

abbrev lineFeed : UInt8 := 0x0a

abbrev blank : UInt8 := 0x20

def isSpace (b : UInt8) : Bool :=
  b == 0x20 || b == 0x09 || b == 0x0a || b == 0x0d

theorem isSpace_iff {b : UInt8} :
    isSpace b = true ↔ b = 0x20 ∨ b = 0x09 ∨ b = 0x0a ∨ b = 0x0d := by
  simp only [isSpace, Bool.or_eq_true, beq_iff_eq, or_assoc]

def isQuote (b : UInt8) : Bool :=
  b == doubleQuote || b == singleQuote

/-- A byte `10xxxxxx`, which continues a character begun earlier. -/
def isContinuation (b : UInt8) : Bool :=
  b &&& 0xc0 == 0x80

theorem isContinuation_iff {b : UInt8} :
    isContinuation b = true ↔ 0x80 ≤ b.toNat ∧ b.toNat ≤ 0xbf := by
  have hall : ∀ bits : BitVec 8,
      isContinuation ⟨bits⟩ = true ↔ 0x80 ≤ bits.toNat ∧ bits.toNat ≤ 0xbf := by
    decide
  exact hall b.toBitVec

end Byte

namespace Bytes

def isAllSpace (bytes : Bytes) : Bool :=
  bytes.all Byte.isSpace

/-- The offset of the first occurrence of `needle`, where the first byte looked at stands at
`offset`.  The empty string is found at once.  This is the search of `memchr` for a single byte and of
`memmem` for several, whatever way they take to it. -/
def search? (needle : Bytes) (offset : Nat) : Bytes → Option Nat
  | [] => if needle.isEmpty then some offset else none
  | b :: rest =>
      if needle.isPrefixOf (b :: rest) then some offset else search? needle (offset + 1) rest

theorem search?_cons_of_begins {needle rest : Bytes} {b : UInt8} (hbegins : needle <+: b :: rest)
    (offset : Nat) : search? needle offset (b :: rest) = some offset :=
  if_pos (List.isPrefixOf_iff_prefix.mpr hbegins)

theorem search?_cons_of_not_begins {needle rest : Bytes} {b : UInt8}
    (hbegins : ¬ needle <+: b :: rest) (offset : Nat) :
    search? needle offset (b :: rest) = search? needle (offset + 1) rest :=
  if_neg (mt List.isPrefixOf_iff_prefix.mp hbegins)

/-- What is found is an occurrence, and there is none before it. -/
theorem search?_eq_some_iff {needle hay : Bytes} {offset found : Nat} :
    search? needle offset hay = some found ↔ ∃ count, found = offset + count ∧
      count ≤ hay.length ∧ needle <+: hay.drop count ∧
        ∀ earlier, earlier < count → ¬ needle <+: hay.drop earlier := by
  induction hay generalizing offset with
  | nil =>
      simp only [search?, List.isEmpty_iff]
      constructor
      · intro hfound
        split at hfound
        · rename_i hempty
          cases hfound
          exact ⟨0, rfl, Nat.le_refl _, hempty ▸ List.nil_prefix, nofun⟩
        · cases hfound
      · rintro ⟨count, rfl, hcount, hneedle, -⟩
        obtain rfl := Nat.le_zero.mp hcount
        rw [if_pos (List.prefix_nil.mp hneedle)]
        rfl
  | cons b rest ih =>
      by_cases hbegins : needle <+: b :: rest
      · rw [search?_cons_of_begins hbegins]
        constructor
        · rintro ⟨⟩
          exact ⟨0, rfl, Nat.zero_le _, hbegins, nofun⟩
        · rintro ⟨count, rfl, -, -, hfirst⟩
          cases count with
          | zero => rfl
          | succ count => exact absurd hbegins (hfirst 0 (Nat.zero_lt_succ _))
      · rw [search?_cons_of_not_begins hbegins, ih]
        constructor
        · rintro ⟨count, rfl, hcount, hneedle, hfirst⟩
          refine ⟨count + 1, by omega, Nat.succ_le_succ hcount, hneedle, fun earlier hearlier => ?_⟩
          cases earlier with
          | zero => exact hbegins
          | succ earlier => exact hfirst earlier (Nat.lt_of_succ_lt_succ hearlier)
        · rintro ⟨count, rfl, hcount, hneedle, hfirst⟩
          cases count with
          | zero => exact absurd hneedle hbegins
          | succ count =>
              exact ⟨count, by omega, Nat.le_of_succ_le_succ hcount, hneedle, fun earlier hearlier =>
                hfirst (earlier + 1) (Nat.succ_lt_succ hearlier)⟩

/-- Nothing is found where there is no occurrence. -/
theorem search?_eq_none_iff {needle hay : Bytes} {offset : Nat} :
    search? needle offset hay = none ↔ ¬ needle <:+: hay := by
  induction hay generalizing offset with
  | nil =>
      simp only [search?, List.isEmpty_iff, List.infix_nil]
      split
      · rename_i hempty
        exact iff_of_false (Option.some_ne_none _) (not_not_intro hempty)
      · rename_i hne
        exact iff_of_true rfl hne
  | cons b rest ih =>
      rw [List.infix_cons_iff, not_or]
      by_cases hbegins : needle <+: b :: rest
      · rw [search?_cons_of_begins hbegins]
        exact iff_of_false (Option.some_ne_none _) fun hnot => hnot.1 hbegins
      · rw [search?_cons_of_not_begins hbegins, ih]
        exact (and_iff_right hbegins).symm

theorem le_of_search? {needle hay : Bytes} {offset found : Nat}
    (hfound : search? needle offset hay = some found) : offset ≤ found := by
  obtain ⟨count, rfl, -⟩ := search?_eq_some_iff.mp hfound
  exact Nat.le_add_right offset count

theorem search?_add_length_le {needle hay : Bytes} {offset found : Nat}
    (hfound : search? needle offset hay = some found) :
    found + needle.length ≤ offset + hay.length := by
  obtain ⟨count, rfl, hcount, hneedle, -⟩ := search?_eq_some_iff.mp hfound
  have hlength := hneedle.length_le
  rw [List.length_drop] at hlength
  omega

def searchFrom? (needle : Bytes) (start : Nat) (input : Buffer) : Option Nat :=
  if start ≤ input.size then search? needle start (input.toList.drop start) else none

end Bytes

end VersionedXml
