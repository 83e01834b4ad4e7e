import HaloVector.Wire
import HaloVector.OpQueue

/-!
# Update records

An update travels as a record of sixteen bytes: its global id, then the pattern of
its value. A batch of records has no header, so its length alone says how many
records it holds.
-/

namespace HaloVector

instance : Cell Update where
  width := 16
  encode u := Cell.encode u.id ++ Cell.encode u.value
  decode bytes := ⟨Cell.decode (bytes.take 8), Cell.decode (bytes.drop 8)⟩

instance : LawfulCell Update where
  width_pos := by decide
  length_encode u := by
    have id := LawfulCell.length_encode u.id
    have value := LawfulCell.length_encode u.value
    simp only [Cell.encode, Cell.width] at id value ⊢
    simp [id, value]
  decode_encode u := by
    have id : (Cell.encode u.id).length = 8 := LawfulCell.length_encode u.id
    simp only [Cell.decode, Cell.encode] at id ⊢
    simp only [List.take_left' id, List.drop_left' id]
    have idBack := LawfulCell.decode_encode u.id
    have valueBack := LawfulCell.decode_encode u.value
    simp only [Cell.decode, Cell.encode] at idBack valueBack
    rw [idBack, valueBack]
  encode_decode bytes full := by
    have front : (bytes.take 8).length = Cell.width UInt64 := by
      simp [Cell.width] at full ⊢
      omega
    have back : (bytes.drop 8).length = Cell.width Scalar := by
      simp [Cell.width] at full ⊢
      omega
    have id := LawfulCell.encode_decode (α := UInt64) _ front
    have value := LawfulCell.encode_decode (α := Scalar) _ back
    simp only [Cell.encode, Cell.decode] at id value ⊢
    rw [id, value, List.take_append_drop]

namespace Update

/-- The size of a record. -/
def recordSize : Nat := Cell.width Update

def encodeAll (updates : List Update) : Bytes := Cell.encodeAll updates

/-- Reads a batch, unless its length is not a whole number of records. -/
def decodeAll? (bytes : Bytes) : Option (List Update) :=
  if bytes.length % recordSize = 0 then
    some (Cell.decodeAll (bytes.length / recordSize) bytes)
  else none

end Update

/-- Refuses a buffer that does not have the expected length. -/
def expectLength (actual expected : Nat) : Except VectorError Unit :=
  if actual = expected then .ok () else .error (.lengthMismatch "wire buffer" expected actual)

end HaloVector
