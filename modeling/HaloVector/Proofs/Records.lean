import Mathlib.Algebra.Group.Nat.Defs
import HaloVector.Proofs.Routing

/-!
# Update records

Batches of updates and byte strings of whole records are the same thing in two forms. No pattern of
an id or a value is special, so infinities and NaNs travel like any other value.

* `wordBytes` are the bytes of a word, each by the place that it counts for, and
  `encodeAll_eq_flatMap` says that a batch is nothing but the words of its updates in order.
* `Update.records_are_bijective`: what was written is read back, and what can be read was written.
-/

namespace HaloVector

/-- The eight bytes of a word. The byte at a place counts for a power of 256. -/
def wordBytes (word : UInt64) : Bytes :=
  (List.range 8).map fun place => UInt8.ofNat (word.toNat / 256 ^ place)

theorem littleEndian_eq_map (width n : Nat) :
    littleEndian width n = (List.range width).map fun place => UInt8.ofNat (n / 256 ^ place) := by
  induction width generalizing n with
  | zero => rfl
  | succ width ih =>
    have shifted (place : Nat) : n / 256 / 256 ^ place = n / 256 ^ (place + 1) := by
      rw [Nat.div_div_eq_div_mul, Nat.pow_succ']
    rw [littleEndian, ih, List.range_succ_eq_map, List.map_cons, List.map_map, Nat.pow_zero,
      Nat.div_one]
    simp only [shifted, Function.comp_def, Nat.succ_eq_add_one]

namespace Update

/-- A record is the word of the id, and then that of the pattern. -/
theorem encode_eq_wordBytes (update : Update) :
    Cell.encode update = wordBytes update.id ++ wordBytes update.value.bits := by
  have word (w : UInt64) : Cell.encode w = wordBytes w := littleEndian_eq_map 8 w.toNat
  exact congrArg₂ (· ++ ·) (word update.id) (word update.value.bits)

theorem encodeAll_eq_flatMap (updates : List Update) :
    encodeAll updates =
      updates.flatMap fun update => wordBytes update.id ++ wordBytes update.value.bits :=
  List.flatMap_congr fun update _ => update.encode_eq_wordBytes

theorem length_encodeAll (updates : List Update) :
    (encodeAll updates).length = 16 * updates.length := by
  rw [encodeAll, Cell.length_encodeAll, Nat.mul_comm]
  rfl

/-- Whole records can be read, and written again they are the same bytes. -/
theorem exists_decodeAll?_of_dvd {bytes : Bytes} (whole : 16 ∣ bytes.length) :
    ∃ updates, decodeAll? bytes = some updates ∧ encodeAll updates = bytes := by
  have counted : bytes.length = bytes.length / recordSize * Cell.width Update :=
    (Nat.div_mul_cancel whole).symm
  exact ⟨_, if_pos (Nat.mod_eq_zero_of_dvd whole), Cell.encodeAll_decodeAll _ bytes counted⟩

theorem decodeAll?_of_not_dvd {bytes : Bytes} (broken : ¬16 ∣ bytes.length) :
    decodeAll? bytes = none := if_neg (mt Nat.dvd_of_mod_eq_zero broken)

/-- A batch is read back as it was written, bit for bit. Bytes can be read exactly if they are
whole records, and then they are what is written for the batch that was read. Batches one after the
other are written one after the other, with sixteen bytes for each update: its id, then the pattern
of its value, and of both the least significant byte first. -/
theorem records_are_bijective :
    (∀ updates, decodeAll? (encodeAll updates) = some updates) ∧
    (∀ bytes : Bytes,
      (16 ∣ bytes.length →
        ∃ updates, decodeAll? bytes = some updates ∧ encodeAll updates = bytes) ∧
      (¬16 ∣ bytes.length → decodeAll? bytes = none)) ∧
    (∀ front back, encodeAll (front ++ back) = encodeAll front ++ encodeAll back) ∧
    ∀ updates,
      (encodeAll updates).length = 16 * updates.length ∧
      encodeAll updates =
        updates.flatMap fun update => wordBytes update.id ++ wordBytes update.value.bits :=
  ⟨decodeAll?_encodeAll,
    fun _ => ⟨exists_decodeAll?_of_dvd, decodeAll?_of_not_dvd⟩,
    Cell.encodeAll_append,
    fun updates => ⟨length_encodeAll updates, encodeAll_eq_flatMap updates⟩⟩

/-- Negative zero for the last id, and a NaN that would signal for the first one. -/
def oddBatch : List Update := [⟨0xffffffffffffffff, .negZero⟩, ⟨0, ⟨0x7ff0000000000001⟩⟩]

theorem records_are_bijective_odd :
    decodeAll? (encodeAll oddBatch) = some oddBatch ∧
    encodeAll oddBatch =
      [255, 255, 255, 255, 255, 255, 255, 255, 0, 0, 0, 0, 0, 0, 0, 128] ++
      [0, 0, 0, 0, 0, 0, 0, 0, 1, 0, 0, 0, 0, 0, 240, 127] ∧
    (∃ updates, decodeAll? (List.replicate 32 7) = some updates ∧
      encodeAll updates = List.replicate 32 7) ∧
    decodeAll? (List.replicate 17 0) = none := by
  obtain ⟨back, reads, -, written⟩ := records_are_bijective
  exact ⟨back oddBatch, (written oddBatch).2.trans (by decide),
    (reads (List.replicate 32 7)).1 (by decide), (reads (List.replicate 17 0)).2 (by decide)⟩

end Update
end HaloVector
