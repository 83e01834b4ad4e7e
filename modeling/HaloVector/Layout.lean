import HaloVector.VectorError

/-!
# Layouts of packed buffers

Where the parts of a buffer lie. A layout gives, for every rank, how many elements
belong to it and at which offset they start. Parts may leave gaps and may overlap.
`Layout.packed` is the layout without gaps, in which the offsets are the running
sums of the counts (`displacements`).

Offsets and counts come from callers, so the end of a part may be beyond the
greatest number of a machine word; an error then names that number
(`lastIndex`).
-/

namespace HaloVector

/-! ## Slices -/

/-- The elements of a buffer from `offset` on, at most `count` of them. -/
def slice {α : Type} (buffer : List α) (offset count : Nat) : List α :=
  (buffer.drop offset).take count

/-- The buffer with `data` in place of what was at `offset`. -/
def writeAt {α : Type} (buffer : List α) (offset : Nat) (data : List α) : List α :=
  buffer.take offset ++ data ++ buffer.drop (offset + data.length)

theorem length_writeAt {α : Type} {buffer data : List α} {offset : Nat}
    (fits : offset + data.length ≤ buffer.length) :
    (writeAt buffer offset data).length = buffer.length := by
  simp [writeAt]
  omega

theorem length_slice {α : Type} {buffer : List α} {offset count : Nat}
    (fits : offset + count ≤ buffer.length) : (slice buffer offset count).length = count := by
  simp [slice]
  omega

/-! ## Blocks -/

/-- The greatest number of a machine word, and so the greatest end that can be named. -/
def lastIndex : Nat := 0xFFFFFFFFFFFFFFFF

/-- Refuses a block that runs past `length`. -/
def checkBlock (what : String) (offset count length : Nat) : Except VectorError Unit :=
  if offset + count ≤ length then .ok ()
  else .error (.rangeOutOfBounds what offset (min (offset + count) lastIndex) length)

theorem checkBlock_eq_ok_iff {what : String} {offset count length : Nat} :
    checkBlock what offset count length = .ok () ↔ offset + count ≤ length := by
  unfold checkBlock
  split <;> simp_all

/-! ## Layouts -/

/-- How many elements all parts have together. -/
def totalCount : List Nat → Nat
  | [] => 0
  | count :: rest => count + totalCount rest

/-- How many elements start before each part, if the parts follow each other from
`start` on. -/
def displacementsFrom (start : Nat) : List Nat → List Nat
  | [] => []
  | count :: rest => start :: displacementsFrom (start + count) rest

/-- The running sums of counts, without the last. -/
def displacements (counts : List Nat) : List Nat := displacementsFrom 0 counts

@[simp] theorem length_displacementsFrom (start : Nat) (counts : List Nat) :
    (displacementsFrom start counts).length = counts.length := by
  induction counts generalizing start with
  | nil => rfl
  | cons count rest ih => simp [displacementsFrom, ih]

@[simp] theorem length_displacements (counts : List Nat) :
    (displacements counts).length = counts.length := length_displacementsFrom 0 counts

/-- The parts of a buffer, by rank. -/
structure Layout where
  counts : List Nat
  offsets : List Nat
deriving DecidableEq, Repr

namespace Layout

/-- The layout without gaps. -/
def packed (counts : List Nat) : Layout := ⟨counts, displacements counts⟩

/-- The layout of parts of one size. -/
def uniform (size count : Nat) : Layout :=
  ⟨List.replicate size count, (List.range size).map (· * count)⟩

/-- How many elements belong to a rank. -/
def count (l : Layout) (rank : Nat) : Nat := l.counts.getD rank 0

/-- Where the elements of a rank start. -/
def offset (l : Layout) (rank : Nat) : Nat := l.offsets.getD rank 0

/-- The same layout in units of which `width` make one element. -/
def scale (l : Layout) (width : Nat) : Layout :=
  ⟨l.counts.map (· * width), l.offsets.map (· * width)⟩

/-- The length of the shortest buffer that holds all parts. -/
def extent (l : Layout) : Nat :=
  (List.zipWith (· + ·) l.counts l.offsets).foldl max 0

/-- The ranks, out of some, to which elements belong. -/
def nonempty (l : Layout) (ranks : List Nat) : List Nat := ranks.filter (0 < l.count ·)

/-- Refuses a layout that does not describe `size` parts of a buffer of the given
length. -/
def check (l : Layout) (what : String) (size length : Nat) : Except VectorError Unit :=
  if l.counts.length ≠ size then .error (.lengthMismatch what size l.counts.length)
  else if l.offsets.length ≠ size then .error (.lengthMismatch what size l.offsets.length)
  else (l.counts.zip l.offsets).forM fun (count, offset) => checkBlock what offset count length

/-- The elements of a buffer that belong to a rank. -/
def part {α : Type} (l : Layout) (buffer : List α) (rank : Nat) : List α :=
  slice buffer (l.offset rank) (l.count rank)

end Layout
end HaloVector
