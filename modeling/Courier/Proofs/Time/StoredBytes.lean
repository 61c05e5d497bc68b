import Courier.Catalog.Row
import Courier.Proofs.Time.StoredOrder
import Mathlib.Data.UInt

/-!
Stored timestamps as bytes.

The catalog compares texts byte by byte.  The text of an instant of the years 0 to 9999 is made of
digits and signs of one byte each (`Instant.isAscii_stored`), and such texts sort by their bytes as
by their characters (`bytes_lt_iff`).

Instants that a timestamp can be read as are all proper: their leap seconds come only at the end of
a minute (`Timestamp.proper_of_strict?`, `Timestamp.proper_of_lenient?`).  For a second 60 is taken
for 59 with a second more of nanoseconds, the fraction itself is less than a second (`fraction_lt`),
and offsets are whole minutes (`offset_emod`), so that no offset moves a leap second off the end of
its minute.

Main statement: the bytes of stored timestamps sort as their instants do, and these are read back
(`Instant.comparable_stored`).
-/

namespace Courier.Time

/-! ### Bytes -/

/-- The bytes of a text. -/
def bytes (s : String) : List UInt8 := s.toUTF8.data.toList

/-- Whether all characters of a text take one byte. -/
def IsAscii (s : String) : Prop := ∀ c ∈ s.toList, c.toNat < 128

theorem bytes_eq_flatMap (s : String) : bytes s = s.toList.flatMap String.utf8EncodeChar := by
  rw [bytes, String.toUTF8_eq_toByteArray, ← String.utf8Encode_toList, List.utf8Encode,
    List.toList_data_toByteArray]

theorem bytes_of_isAscii {s : String} (h : IsAscii s) :
    bytes s = s.toList.map fun c => c.val.toUInt8 := by
  rw [bytes_eq_flatMap, List.map_eq_flatMap]
  refine List.flatMap_congr fun c hc => String.utf8EncodeChar_eq_singleton ?_
  rw [Char.utf8Size_eq_one_iff, UInt32.le_iff_toNat_le]
  exact Nat.le_of_lt_succ (h c hc)

theorem toNat_toUInt8 {c : Char} (h : c.toNat < 128) : c.val.toUInt8.toNat = c.toNat := by
  rw [UInt32.toNat_toUInt8]
  exact Nat.mod_eq_of_lt (Nat.lt_trans h (by decide))

/-- Characters of one byte sort as their bytes. -/
theorem toUInt8_lt_iff {c d : Char} (hc : c.toNat < 128) (hd : d.toNat < 128) :
    c.val.toUInt8 < d.val.toUInt8 ↔ c < d := by
  rw [UInt8.lt_iff_toNat_lt, toNat_toUInt8 hc, toNat_toUInt8 hd]
  exact Iff.rfl

theorem toUInt8_inj {c d : Char} (hc : c.toNat < 128) (hd : d.toNat < 128) :
    c.val.toUInt8 = d.val.toUInt8 ↔ c = d := by
  rw [← UInt8.toNat_inj, toNat_toUInt8 hc, toNat_toUInt8 hd, Char.toNat_inj]

theorem map_toUInt8_lt_iff {cs ds : List Char} (hcs : ∀ c ∈ cs, c.toNat < 128)
    (hds : ∀ d ∈ ds, d.toNat < 128) :
    (cs.map fun c => c.val.toUInt8) < (ds.map fun d => d.val.toUInt8) ↔ cs < ds := by
  induction cs generalizing ds with
  | nil => cases ds <;> simp
  | cons c cs ih =>
    cases ds with
    | nil => simp
    | cons d ds =>
      obtain ⟨hc, hcs⟩ := List.forall_mem_cons.mp hcs
      obtain ⟨hd, hds⟩ := List.forall_mem_cons.mp hds
      rw [List.map_cons, List.map_cons, List.cons_lt_cons_iff, List.cons_lt_cons_iff,
        toUInt8_lt_iff hc hd, toUInt8_inj hc hd, ih hcs hds]

/-- Texts of one byte a character sort as their bytes. -/
theorem bytes_lt_iff {s t : String} (hs : IsAscii s) (ht : IsAscii t) :
    bytes s < bytes t ↔ s < t := by
  rw [bytes_of_isAscii hs, bytes_of_isAscii ht, map_toUInt8_lt_iff hs ht, String.lt_iff_toList_lt]

theorem bytes_inj {s t : String} : bytes s = bytes t ↔ s = t := by
  rw [bytes, bytes, Array.toList_inj, ← ByteArray.ext_iff, String.toUTF8_eq_toByteArray,
    String.toUTF8_eq_toByteArray, String.toByteArray_inj]

/-! ### Proper instants -/

namespace Timestamp

theorem takeDigits_lt {limit value count : ℕ} {cs : List Char}
    (h : value < Nat.pow 10 count) :
    (takeDigits limit value count cs).1 < Nat.pow 10 (takeDigits limit value count cs).2.1 ∧
      (takeDigits limit value count cs).2.1 ≤ count + limit := by
  induction limit generalizing value count cs with
  | zero => exact ⟨h, Nat.le_refl _⟩
  | succ limit ih =>
    cases cs with
    | nil => exact ⟨h, Nat.le_add_right _ _⟩
    | cons c cs =>
      rw [takeDigits]
      rcases hdigit : digit? c with - | d
      · exact ⟨h, Nat.le_add_right _ _⟩
      · have hd : d < 10 := by
          unfold digit? at hdigit
          split at hdigit
          · rename_i hrange
            have hnine : c.toNat ≤ 57 := hrange.2
            have hzero : '0'.toNat = 48 := rfl
            have hvalue := Option.some.inj hdigit
            omega
          · cases hdigit
        have hpow : Nat.pow 10 (count + 1) = Nat.pow 10 count * 10 := rfl
        obtain ⟨hlt, hle⟩ := @ih (10 * value + d) (count + 1) cs (by omega)
        exact ⟨hlt, Nat.le_trans hle (by omega)⟩

theorem fraction_lt {cs rest : List Char} {n : ℕ} (h : fraction cs = some (n, rest)) :
    n < nanosPerSecond := by
  unfold fraction at h
  split at h
  case h_1 cs =>
    dsimp only at h
    split at h
    · cases h
    · obtain ⟨hlt, hle⟩ := @takeDigits_lt 9 0 0 cs (by decide)
      obtain ⟨rfl, -⟩ := Prod.mk.inj (Option.some.inj h)
      -- the digits that are missing are zeros
      have hpow : Nat.pow 10 (takeDigits 9 0 0 cs).2.1 * Nat.pow 10 (9 - (takeDigits 9 0 0 cs).2.1) =
          nanosPerSecond := by
        rw [Nat.pow_eq, Nat.pow_eq, ← Nat.pow_add, Nat.add_sub_cancel' (by omega)]
        rfl
      rw [← hpow]
      exact Nat.mul_lt_mul_of_pos_right hlt (Nat.pow_pos (by decide))
  case h_2 =>
    obtain ⟨rfl, -⟩ := Prod.mk.inj (Option.some.inj h)
    decide

/-- Offsets are whole minutes. -/
theorem offset_emod {between : List Char → Option (List Char)} {cs rest : List Char} {o : Int}
    (h : offset between cs = some (o, rest)) : o % 60 = 0 := by
  unfold offset at h
  split at h
  -- a sign with hours and minutes; the other forms are no offset at all
  case h_3 =>
    simp only [Option.bind_eq_bind, Option.bind_eq_some_iff] at h
    obtain ⟨⟨sign, _⟩, -, ⟨hours, _⟩, -, _, -, ⟨minutes, _⟩, -, h⟩ := h
    dsimp only at h
    split at h
    · obtain ⟨rfl, -⟩ := Prod.mk.inj (Option.some.inj h)
      have hminutes : ((hours * 3600 + minutes * 60 : ℕ) : Int) = 60 * (hours * 60 + minutes) := by
        omega
      rw [hminutes, Int.mul_left_comm, Int.mul_emod_right]
    · cases h
  all_goals
    obtain ⟨rfl, -⟩ := Prod.mk.inj (Option.some.inj h)
    rfl

/-- A second 60 is read as a leap second, at the end of a minute. -/
theorem proper_of_instant? {p : Parts} {a : Instant} (h : p.instant? = some a)
    (hnanos : p.nanos < nanosPerSecond) (hoffset : p.offset % 60 = 0) : a.Proper := by
  simp only [Parts.instant?, Option.ite_none_left_eq_some, Option.ite_none_right_eq_some,
    Option.some.injEq] at h
  obtain ⟨-, -, -, -, rfl⟩ := h
  unfold nanosPerSecond at hnanos
  -- a second 60 becomes the end of second 59
  by_cases hsecond : p.second = 60
  · simp only [Instant.Proper, Instant.ofParts, nanosPerSecond, hsecond, if_true, daySeconds]
    omega
  · refine ⟨?_, fun hleap => ?_⟩
    · simp only [Instant.ofParts, nanosPerSecond, hsecond, if_false]
      omega
    · simp only [Instant.isLeap, Instant.ofParts, hsecond, if_false, nanosPerSecond] at hleap
      exact absurd (of_decide_eq_true hleap) (by omega)

/-- What the exact form is read as is proper. -/
theorem proper_of_strict? {s : String} {a : Instant} (h : strict? s = some a) : a.Proper := by
  simp only [strict?, Option.bind_eq_bind, Option.bind_eq_some_iff] at h
  obtain ⟨_, -, _, -, _, -, _, -, _, -, _, -, _, -, _, -, _, -, _, -, _, -, ⟨nanos, _⟩, hnanos,
    ⟨offset, _⟩, hoffset, h⟩ := h
  dsimp only at h
  split at h
  · exact proper_of_instant? h (fraction_lt hnanos) (offset_emod hoffset)
  · cases h

/-- What the loose form is read as is proper. -/
theorem proper_of_lenient? {s : String} {a : Instant} (h : lenient? s = some a) : a.Proper := by
  simp only [lenient?, Option.bind_eq_bind, Option.bind_eq_some_iff] at h
  obtain ⟨_, -, _, -, _, -, _, -, _, -, _, -, _, -, _, -, _, -, _, -, _, -, ⟨nanos, _⟩, hnanos,
    ⟨offset, _⟩, hoffset, h⟩ := h
  have hminutes : offset % 60 = 0 := by
    unfold lenientOffset at hoffset
    split at hoffset
    · split at hoffset
      · obtain ⟨rfl, -⟩ := Prod.mk.inj (Option.some.inj hoffset)
        rfl
      · exact offset_emod hoffset
    · exact offset_emod hoffset
  dsimp only at h
  split at h
  · exact proper_of_instant? h (fraction_lt hnanos) hminutes
  · cases h

end Timestamp

/-! ### Stored instants -/

namespace Instant

theorem isAscii_stored {a : Instant} (h : a.Storable) : IsAscii a.stored := by
  have hpadded (width n : ℕ) : ∀ c ∈ (padded width n).toList, c.toNat < 128 := by
    intro c hc
    have hdigit := isDigit_of_mem_padded hc
    simp only [Char.isDigit, Bool.and_eq_true, decide_eq_true_eq] at hdigit
    exact Nat.lt_of_le_of_lt hdigit.2 (by decide)
  rw [IsAscii, toList_stored, yearText, if_pos h.year]
  simp only [List.forall_mem_append, List.forall_mem_cons]
  exact ⟨hpadded _ _, by decide, hpadded _ _, by decide, hpadded _ _, by decide, hpadded _ _,
    by decide, hpadded _ _, by decide, hpadded _ _, by decide, hpadded _ _, by decide,
    List.forall_mem_nil _⟩

/-- Whether two instants can be told from the bytes of their stored texts: which one is before the
other, whether they are one, and which ones they are. -/
structure Comparable (a b : Instant) : Prop where
  before : bytes a.stored < bytes b.stored ↔ a < b
  same : bytes a.stored = bytes b.stored ↔ a = b
  read : Catalog.Row.readTime a.stored = .ok a ∧ Catalog.Row.readTime b.stored = .ok b

theorem readTime_stored {a : Instant} (h : a.Storable) : Catalog.Row.readTime a.stored = .ok a := by
  rw [Catalog.Row.readTime, Timestamp.strict?_stored_eq h]

/-- Stored instants of the years 0 to 9999 sort by their bytes as in time, and are read back. -/
theorem comparable_stored {a b : Instant} (ha : a.Storable) (hb : b.Storable) :
    a.Comparable b where
  before := (bytes_lt_iff (isAscii_stored ha) (isAscii_stored hb)).trans (stored_lt_iff ha hb)
  same := by
    rw [bytes_inj]
    refine ⟨fun heq => ?_, fun heq => heq ▸ rfl⟩
    have hread := readTime_stored ha
    rw [heq, readTime_stored hb] at hread
    exact (Except.ok.inj hread).symm
  read := ⟨readTime_stored ha, readTime_stored hb⟩

/-- Half a second into the leap second at the end of 2016, and the midnight after it. -/
theorem comparable_stored_leap :
    let leap : Instant := ⟨1483228799, 1500000000⟩
    let midnight : Instant := ⟨1483228800, 0⟩
    leap.Storable ∧ midnight.Storable ∧ leap.stored = "2016-12-31T23:59:60.500000000Z" ∧
      bytes leap.stored < bytes midnight.stored ∧ leap.Comparable midnight := by
  intro leap midnight
  have hleap : leap.Storable := by decide +kernel
  have hmidnight : midnight.Storable := by decide +kernel
  have hcomparable := comparable_stored hleap hmidnight
  exact ⟨hleap, hmidnight, by decide +kernel, hcomparable.before.mpr (by decide), hcomparable⟩

end Instant

end Courier.Time
