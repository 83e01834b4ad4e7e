import HaloVector.Scalar

/-!
# Elements on the wire

A message is a list of bytes. A type whose values all take the same number of
bytes is a `Cell`; numbers travel least significant byte first. `encodeAll` and
`decodeAll` pack cells without gaps, and a `LawfulCell` is one for which reading
and writing undo each other.
-/

namespace HaloVector

/-- The contents of a message or of a raw buffer. -/
abbrev Bytes := List UInt8

/-! ## Little-endian numbers -/

/-- The low `width` bytes of a number, least significant first. -/
def littleEndian : (width : Nat) → (n : Nat) → Bytes
  | 0, _ => []
  | width + 1, n => UInt8.ofNat n :: littleEndian width (n / 256)

def ofLittleEndian : Bytes → Nat
  | [] => 0
  | byte :: rest => byte.toNat + 256 * ofLittleEndian rest

/-- How many numbers there are of so many bytes. -/
def byteRange : (width : Nat) → Nat
  | 0 => 1
  | width + 1 => 256 * byteRange width

@[simp] theorem length_littleEndian (width n : Nat) : (littleEndian width n).length = width := by
  induction width generalizing n with
  | zero => rfl
  | succ width ih => simp [littleEndian, ih]

theorem ofLittleEndian_lt (bytes : Bytes) : ofLittleEndian bytes < byteRange bytes.length := by
  induction bytes with
  | nil => simp [ofLittleEndian, byteRange]
  | cons byte rest ih =>
    have small := byte.toNat_lt
    simp only [ofLittleEndian, List.length_cons, byteRange]
    omega

theorem ofLittleEndian_littleEndian (width n : Nat) :
    ofLittleEndian (littleEndian width n) = n % byteRange width := by
  induction width generalizing n with
  | zero => simp [littleEndian, ofLittleEndian, byteRange, Nat.mod_one]
  | succ width ih =>
    have low : (UInt8.ofNat n).toNat = n % 256 := UInt8.toNat_ofNat'
    rw [littleEndian, ofLittleEndian, ih, low, byteRange, Nat.mod_mul]

theorem littleEndian_ofLittleEndian (bytes : Bytes) :
    littleEndian bytes.length (ofLittleEndian bytes) = bytes := by
  induction bytes with
  | nil => rfl
  | cons byte rest ih =>
    have small := byte.toNat_lt
    have high : (byte.toNat + 256 * ofLittleEndian rest) / 256 = ofLittleEndian rest := by
      omega
    have low : UInt8.ofNat (byte.toNat + 256 * ofLittleEndian rest) = byte := by
      apply UInt8.toNat.inj
      rw [UInt8.toNat_ofNat']
      omega
    simp only [List.length_cons, littleEndian, ofLittleEndian, high, low, ih]

/-! ## Cells -/

/-- A type whose values all take `width` bytes. -/
class Cell (α : Type) where
  width : Nat
  encode : α → Bytes
  decode : Bytes → α

/-- Writing fills the width, and reading and writing undo each other. -/
class LawfulCell (α : Type) [Cell α] : Prop where
  width_pos : 0 < Cell.width α
  length_encode (a : α) : (Cell.encode a).length = Cell.width α
  decode_encode (a : α) : Cell.decode (Cell.encode a) = a
  encode_decode (bytes : Bytes) :
    bytes.length = Cell.width α → Cell.encode (Cell.decode bytes : α) = bytes

namespace Cell

/-- The cell whose bytes are all zero. -/
def zero (α : Type) [Cell α] : α := decode (List.replicate (width α) 0)

def encodeAll {α : Type} [Cell α] (cells : List α) : Bytes := cells.flatMap encode

/-- Reads so many cells, one after the other. -/
def decodeAll {α : Type} [Cell α] : (count : Nat) → Bytes → List α
  | 0, _ => []
  | count + 1, bytes =>
    decode (bytes.take (width α)) :: decodeAll count (bytes.drop (width α))

end Cell

instance : Cell UInt8 where
  width := 1
  encode n := littleEndian 1 n.toNat
  decode bytes := UInt8.ofNat (ofLittleEndian bytes)

instance : Cell UInt16 where
  width := 2
  encode n := littleEndian 2 n.toNat
  decode bytes := UInt16.ofNat (ofLittleEndian bytes)

instance : Cell UInt32 where
  width := 4
  encode n := littleEndian 4 n.toNat
  decode bytes := UInt32.ofNat (ofLittleEndian bytes)

instance : Cell UInt64 where
  width := 8
  encode n := littleEndian 8 n.toNat
  decode bytes := UInt64.ofNat (ofLittleEndian bytes)

instance : Cell Scalar where
  width := 8
  encode x := Cell.encode x.bits
  decode bytes := ⟨Cell.decode bytes⟩

/-! ## Laws -/

/-- Numbers of so many bytes, least significant first, are lawful cells. -/
theorem LawfulCell.of_littleEndian {α : Type} [Cell α] {toNat : α → Nat} {ofNat : Nat → α}
    (width_pos : 0 < Cell.width α)
    (encode_eq : ∀ a : α, Cell.encode a = littleEndian (Cell.width α) (toNat a))
    (decode_eq : ∀ bytes, (Cell.decode bytes : α) = ofNat (ofLittleEndian bytes))
    (toNat_lt : ∀ a, toNat a < byteRange (Cell.width α)) (ofNat_toNat : ∀ a, ofNat (toNat a) = a)
    (toNat_ofNat : ∀ n < byteRange (Cell.width α), toNat (ofNat n) = n) : LawfulCell α where
  width_pos := width_pos
  length_encode a := by rw [encode_eq, length_littleEndian]
  decode_encode a := by
    rw [decode_eq, encode_eq, ofLittleEndian_littleEndian, Nat.mod_eq_of_lt (toNat_lt a),
      ofNat_toNat]
  encode_decode bytes full := by
    have small := ofLittleEndian_lt bytes
    rw [full] at small
    rw [encode_eq, decode_eq, toNat_ofNat _ small, ← full, littleEndian_ofLittleEndian]

instance : LawfulCell UInt8 :=
  .of_littleEndian (by decide) (fun _ => rfl) (fun _ => rfl) UInt8.toNat_lt
    (fun _ => UInt8.ofNat_toNat) fun _ => UInt8.toNat_ofNat_of_lt'

instance : LawfulCell UInt16 :=
  .of_littleEndian (by decide) (fun _ => rfl) (fun _ => rfl) UInt16.toNat_lt
    (fun _ => UInt16.ofNat_toNat) fun _ => UInt16.toNat_ofNat_of_lt'

instance : LawfulCell UInt32 :=
  .of_littleEndian (by decide) (fun _ => rfl) (fun _ => rfl) UInt32.toNat_lt
    (fun _ => UInt32.ofNat_toNat) fun _ => UInt32.toNat_ofNat_of_lt'

instance : LawfulCell UInt64 :=
  .of_littleEndian (by decide) (fun _ => rfl) (fun _ => rfl) UInt64.toNat_lt
    (fun _ => UInt64.ofNat_toNat) fun _ => UInt64.toNat_ofNat_of_lt'

instance : LawfulCell Scalar where
  width_pos := by decide
  length_encode x := LawfulCell.length_encode x.bits
  decode_encode x := congrArg Scalar.mk (LawfulCell.decode_encode x.bits)
  encode_decode bytes full := LawfulCell.encode_decode (α := UInt64) bytes full

namespace Cell

variable {α : Type} [Cell α]

@[simp] theorem encodeAll_nil : encodeAll ([] : List α) = [] := rfl

@[simp] theorem encodeAll_cons (a : α) (cells : List α) :
    encodeAll (a :: cells) = encode a ++ encodeAll cells := rfl

theorem encodeAll_append (front back : List α) :
    encodeAll (front ++ back) = encodeAll front ++ encodeAll back := by
  simp [encodeAll]

@[simp] theorem length_decodeAll (count : Nat) (bytes : Bytes) :
    (decodeAll count bytes : List α).length = count := by
  induction count generalizing bytes with
  | zero => rfl
  | succ count ih => simp [decodeAll, ih]

theorem length_encodeAll [LawfulCell α] (cells : List α) :
    (encodeAll cells).length = cells.length * width α := by
  induction cells with
  | nil => simp
  | cons a cells ih =>
    simp [ih, LawfulCell.length_encode, Nat.succ_mul, Nat.add_comm]

theorem decodeAll_encodeAll [LawfulCell α] (cells : List α) :
    decodeAll cells.length (encodeAll cells) = cells := by
  induction cells with
  | nil => rfl
  | cons a cells ih =>
    have whole := LawfulCell.length_encode a
    simp [decodeAll, ← whole, LawfulCell.decode_encode, ih]

theorem encodeAll_decodeAll [LawfulCell α] (count : Nat) (bytes : Bytes)
    (full : bytes.length = count * width α) :
    encodeAll (decodeAll count bytes : List α) = bytes := by
  induction count generalizing bytes with
  | zero =>
    have none_left : bytes = [] := List.eq_nil_of_length_eq_zero (by simpa using full)
    subst none_left
    rfl
  | succ count ih =>
    rw [Nat.succ_mul] at full
    rw [decodeAll, encodeAll_cons, ih _ (by simp; omega),
      LawfulCell.encode_decode _ (by simp; omega), List.take_append_drop]

end Cell
end HaloVector
