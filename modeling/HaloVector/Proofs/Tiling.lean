import HaloVector.Layout
import HaloVector.Wire
import HaloVector.Proofs.Checks

/-!
# Tiling

The parts of a packed layout lie side by side and cover the whole buffer. So parts
can be written in any order without harm to each other, and what was packed comes
back when it is taken apart, in elements and in bytes.

* `Layout.part_writeParts` says what is in a part after several were written.
* `Layout.flatMap_part_packed` puts the parts of a packed buffer together again.
* `Layout.part_encodeAll` is the same part in bytes.
-/

namespace HaloVector

variable {α : Type}

/-! ## Slices -/

@[simp] theorem slice_zero (buffer : List α) (offset : Nat) : slice buffer offset 0 = [] := by
  simp [slice]

theorem slice_writeAt_self {buffer data : List α} {offset : Nat}
    (fits : offset + data.length ≤ buffer.length) :
    slice (writeAt buffer offset data) offset data.length = data := by
  have before : (buffer.take offset).length = offset := by
    rw [List.length_take]
    omega
  rw [slice, writeAt, List.append_assoc, List.drop_left' before, List.take_left]

theorem slice_writeAt_apart {buffer data : List α} {offset other count : Nat}
    (fits : offset + data.length ≤ buffer.length)
    (apart : offset + data.length ≤ other ∨ other + count ≤ offset) :
    slice (writeAt buffer offset data) other count = slice buffer other count := by
  apply List.ext_getElem?
  intro i
  simp only [slice, writeAt, List.getElem?_take, List.getElem?_drop, List.getElem?_append,
    List.length_append, List.length_take]
  grind

theorem Cell.drop_encodeAll [Cell α] [LawfulCell α] (cells : List α) (count : Nat) :
    (encodeAll cells).drop (count * width α) = encodeAll (cells.drop count) := by
  induction cells generalizing count with
  | nil => simp
  | cons cell rest ih =>
    cases count with
    | zero => simp
    | succ count =>
      have whole : (encode cell).length = width α := LawfulCell.length_encode cell
      rw [encodeAll_cons, List.drop_succ_cons, ← ih, Nat.succ_mul, Nat.add_comm,
        ← List.drop_drop, List.drop_left' whole]

theorem Cell.take_encodeAll [Cell α] [LawfulCell α] (cells : List α) (count : Nat) :
    (encodeAll cells).take (count * width α) = encodeAll (cells.take count) := by
  induction cells generalizing count with
  | nil => simp
  | cons cell rest ih =>
    cases count with
    | zero => simp
    | succ count =>
      have whole : (encode cell).length = width α := LawfulCell.length_encode cell
      rw [encodeAll_cons, List.take_succ_cons, encodeAll_cons, ← ih, Nat.succ_mul, Nat.add_comm,
        ← whole, List.take_length_add_append, whole]

theorem Cell.slice_encodeAll [Cell α] [LawfulCell α] (cells : List α) (offset count : Nat) :
    slice (encodeAll cells) (offset * width α) (count * width α) =
      encodeAll (slice cells offset count) := by
  rw [slice, drop_encodeAll, take_encodeAll, slice]

theorem Cell.writeAt_encodeAll [Cell α] [LawfulCell α] (cells data : List α) (offset : Nat) :
    writeAt (encodeAll cells) (offset * width α) (encodeAll data) =
      encodeAll (writeAt cells offset data) := by
  rw [writeAt, take_encodeAll, length_encodeAll, ← Nat.add_mul, drop_encodeAll,
    ← encodeAll_append, ← encodeAll_append, writeAt]

theorem Cell.encodeAll_injective [Cell α] [LawfulCell α] :
    Function.Injective (encodeAll : List α → Bytes) := by
  intro cells others same
  have long := congrArg List.length same
  rw [length_encodeAll, length_encodeAll] at long
  rw [← decodeAll_encodeAll cells, Nat.eq_of_mul_eq_mul_right LawfulCell.width_pos long, same,
    decodeAll_encodeAll]

/-- Zero bytes are zero cells. -/
theorem Cell.encodeAll_replicate_zero [Cell α] [LawfulCell α] (count : Nat) :
    encodeAll (List.replicate count (zero α)) = List.replicate (count * width α) 0 := by
  have alone : encode (zero α) = List.replicate (width α) 0 :=
    LawfulCell.encode_decode _ List.length_replicate
  induction count with
  | zero => simp
  | succ count ih =>
    rw [List.replicate_succ, encodeAll_cons, ih, alone, List.replicate_append_replicate,
      Nat.succ_mul, Nat.add_comm]

theorem getElem?_writeAt {buffer data : List α} {offset : Nat}
    (fits : offset + data.length ≤ buffer.length) (index : Nat) :
    (writeAt buffer offset data)[index]? =
      if offset ≤ index ∧ index < offset + data.length then data[index - offset]?
      else buffer[index]? := by
  simp only [writeAt, List.getElem?_append, List.length_append, List.length_take,
    List.getElem?_take, List.getElem?_drop]
  grind

/-! ## Sums -/

@[simp] theorem totalCount_append (front back : List Nat) :
    totalCount (front ++ back) = totalCount front + totalCount back := by
  induction front with
  | nil => simp [totalCount]
  | cons count rest ih => simp [totalCount, ih, Nat.add_assoc]

theorem getD_map_mul (counts : List Nat) (width rank : Nat) :
    (counts.map (· * width)).getD rank 0 = counts.getD rank 0 * width := by
  by_cases inside : rank < counts.length <;> simp [List.getD_eq_getElem?_getD, inside]

@[simp] theorem totalCount_replicate (size count : Nat) :
    totalCount (List.replicate size count) = size * count := by
  induction size with
  | zero => simp [totalCount]
  | succ size ih => simp [List.replicate_succ, totalCount, ih, Nat.succ_mul, Nat.add_comm]

theorem totalCount_take_succ {counts : List Nat} {rank : Nat} (inside : rank < counts.length) :
    totalCount (counts.take (rank + 1)) =
      totalCount (counts.take rank) + counts.getD rank 0 := by
  rw [List.take_succ_eq_append_getElem inside, totalCount_append,
    List.getD_eq_getElem?_getD, List.getElem?_eq_getElem inside]
  rfl

theorem totalCount_take_mono (counts : List Nat) {few more : Nat} (fewer : few ≤ more) :
    totalCount (counts.take few) ≤ totalCount (counts.take more) := by
  rw [← Nat.add_sub_cancel' fewer, List.take_add, totalCount_append]
  exact Nat.le_add_right _ _

theorem totalCount_take_le (counts : List Nat) (few : Nat) :
    totalCount (counts.take few) ≤ totalCount counts := by
  conv => rhs; rw [← List.take_append_drop few counts, totalCount_append]
  exact Nat.le_add_right _ _

theorem totalCount_map_length (lists : List (List α)) :
    totalCount (lists.map List.length) = lists.flatten.length := by
  induction lists with
  | nil => rfl
  | cons list rest ih => simp [totalCount, ih]

/-! ## Displacements -/

theorem getD_displacementsFrom (start : Nat) {counts : List Nat} {rank : Nat}
    (inside : rank < counts.length) :
    (displacementsFrom start counts).getD rank 0 = start + totalCount (counts.take rank) := by
  induction counts generalizing start rank with
  | nil => cases inside
  | cons count rest ih =>
    cases rank with
    | zero => simp [displacementsFrom, totalCount]
    | succ rank =>
      have later := ih (start + count) (Nat.lt_of_succ_lt_succ inside)
      rw [displacementsFrom, List.getD_cons_succ, later, List.take_succ_cons, totalCount]
      omega

theorem foldl_max_displacementsFrom (start : Nat) (counts : List Nat) :
    (List.zipWith (· + ·) counts (displacementsFrom start counts)).foldl max start =
      start + totalCount counts := by
  induction counts generalizing start with
  | nil => rfl
  | cons count rest ih =>
    have higher : max start (count + start) = start + count := by omega
    rw [displacementsFrom, List.zipWith_cons_cons, List.foldl_cons, higher, ih, totalCount,
      Nat.add_assoc]

namespace Layout

/-! ## Layouts -/

theorem check_eq_ok_iff {l : Layout} {what : String} {size length : Nat} :
    l.check what size length = .ok () ↔
      l.counts.length = size ∧ l.offsets.length = size ∧
        ∀ rank < size, l.offset rank + l.count rank ≤ length := by
  unfold check
  split
  · rename_i short
    simp [short]
  split
  · rename_i short
    simp [short]
  rename_i countsWhole offsetsWhole
  rw [ne_eq, Decidable.not_not] at countsWhole offsetsWhole
  simp only [forM_eq_ok_iff, checkBlock_eq_ok_iff, countsWhole, offsetsWhole, true_and]
  constructor
  · intro fits rank inside
    have member : (l.counts.getD rank 0, l.offsets.getD rank 0) ∈ l.counts.zip l.offsets := by
      rw [List.mem_iff_getElem?]
      refine ⟨rank, ?_⟩
      simp [List.getD_eq_getElem?_getD, countsWhole, offsetsWhole, inside]
    exact fits _ member
  · rintro fits ⟨count, offset⟩ member
    obtain ⟨rank, inside, here⟩ := List.getElem_of_mem member
    have bound : rank < size := by
      rw [List.length_zip] at inside
      omega
    have whole := fits rank bound
    simp only [List.getElem_zip, Prod.mk.injEq] at here
    simp only [Layout.count, Layout.offset, List.getD_eq_getElem?_getD] at whole
    rw [List.getElem?_eq_getElem, List.getElem?_eq_getElem] at whole
    · simpa [here] using whole
    · omega
    · omega

theorem fits_of_check {l : Layout} {what : String} {size length rank : Nat}
    (passed : l.check what size length = .ok ()) (inside : rank < size) :
    l.offset rank + l.count rank ≤ length := (check_eq_ok_iff.1 passed).2.2 rank inside

theorem packed_count (counts : List Nat) (rank : Nat) :
    (packed counts).count rank = counts.getD rank 0 := rfl

theorem packed_offset {counts : List Nat} {rank : Nat} (inside : rank < counts.length) :
    (packed counts).offset rank = totalCount (counts.take rank) := by
  have here := getD_displacementsFrom 0 inside
  rwa [Nat.zero_add] at here

theorem packed_stop {counts : List Nat} {rank : Nat} (inside : rank < counts.length) :
    (packed counts).offset rank + (packed counts).count rank =
      totalCount (counts.take (rank + 1)) := by
  rw [packed_offset inside, packed_count, totalCount_take_succ inside]

theorem packed_fits {counts : List Nat} {rank : Nat} (inside : rank < counts.length) :
    (packed counts).offset rank + (packed counts).count rank ≤ totalCount counts := by
  rw [packed_stop inside]
  exact totalCount_take_le counts (rank + 1)

/-- Two parts do not overlap. -/
def Apart (l : Layout) (one other : Nat) : Prop :=
  l.offset one + l.count one ≤ l.offset other ∨ l.offset other + l.count other ≤ l.offset one

theorem packed_apart {counts : List Nat} {one other : Nat} (distinct : one ≠ other)
    (insideOne : one < counts.length) (insideOther : other < counts.length) :
    (packed counts).Apart one other := by
  unfold Apart
  rw [packed_stop insideOne, packed_stop insideOther, packed_offset insideOne,
    packed_offset insideOther]
  rcases Nat.lt_or_gt_of_ne distinct with below | above
  · exact .inl (totalCount_take_mono counts below)
  · exact .inr (totalCount_take_mono counts above)

theorem check_packed {counts : List Nat} {what : String} {size length : Nat}
    (whole : counts.length = size) (fits : totalCount counts ≤ length) :
    (packed counts).check what size length = .ok () := by
  rw [check_eq_ok_iff]
  refine ⟨whole, (length_displacements counts).trans whole, fun rank inside => ?_⟩
  exact Nat.le_trans (packed_fits (whole ▸ inside)) fits

theorem extent_packed (counts : List Nat) : (packed counts).extent = totalCount counts := by
  have highest := foldl_max_displacementsFrom 0 counts
  rwa [Nat.zero_add] at highest

theorem uniform_eq_packed (size count : Nat) :
    uniform size count = packed (List.replicate size count) := by
  have same : (List.range size).map (· * count) =
      displacements (List.replicate size count) := by
    apply List.ext_getElem?
    intro rank
    by_cases inside : rank < size
    · have bound : rank < (List.replicate size count).length := by simpa using inside
      have here := getD_displacementsFrom 0 bound
      rw [List.getD_eq_getElem?_getD, List.getElem?_eq_getElem (by simpa using inside)] at here
      rw [List.getElem?_eq_getElem (by simpa using inside),
        List.getElem?_eq_getElem (by simpa using inside)]
      simp only [Option.getD_some, List.take_replicate, totalCount_replicate] at here
      simp only [displacements, here, List.getElem_map, List.getElem_range, Nat.zero_add,
        Nat.min_eq_left (Nat.le_of_lt inside)]
    · simp [inside]
  simp [uniform, packed, same]

/-! ## Parts -/

theorem length_part {l : Layout} {buffer : List α} {rank : Nat}
    (fits : l.offset rank + l.count rank ≤ buffer.length) :
    (l.part buffer rank).length = l.count rank := length_slice fits

/-- The buffer after parts were written for some ranks, one after the other. -/
def writeParts (l : Layout) (data : Nat → List α) (ranks : List Nat) (buffer : List α) :
    List α :=
  ranks.foldl (fun buffer rank => writeAt buffer (l.offset rank) (data rank)) buffer

section writeParts

variable {l : Layout} {data : Nat → List α} {ranks : List Nat} {buffer : List α}

theorem writeParts_congr {others : Nat → List α} (same : ∀ rank ∈ ranks, data rank = others rank) :
    l.writeParts data ranks buffer = l.writeParts others ranks buffer := by
  induction ranks generalizing buffer with
  | nil => rfl
  | cons rank rest ih =>
    obtain ⟨here, later⟩ := List.forall_mem_cons.1 same
    show l.writeParts data rest (writeAt buffer _ (data rank)) = _
    rw [here, ih later]
    rfl

theorem length_writeParts (sized : ∀ rank ∈ ranks, (data rank).length = l.count rank)
    (fits : ∀ rank ∈ ranks, l.offset rank + l.count rank ≤ buffer.length) :
    (l.writeParts data ranks buffer).length = buffer.length := by
  induction ranks generalizing buffer with
  | nil => rfl
  | cons rank rest ih =>
    obtain ⟨sizedHere, sizedLater⟩ := List.forall_mem_cons.1 sized
    obtain ⟨fitsHere, fitsLater⟩ := List.forall_mem_cons.1 fits
    have kept := length_writeAt (sizedHere ▸ fitsHere : _ + (data rank).length ≤ _)
    exact (ih sizedLater (by rwa [kept])).trans kept

/-- A part holds what was written for it, unless a later one overlaps it. -/
theorem part_writeParts (sized : ∀ rank ∈ ranks, (data rank).length = l.count rank)
    (fits : ∀ rank ∈ ranks, l.offset rank + l.count rank ≤ buffer.length) {rank : Nat}
    (apart : ∀ other ∈ ranks, other ≠ rank → l.Apart other rank) :
    l.part (l.writeParts data ranks buffer) rank =
      if rank ∈ ranks then data rank else l.part buffer rank := by
  induction ranks generalizing buffer with
  | nil => simp [writeParts]
  | cons first rest ih =>
    obtain ⟨sizedHere, sizedLater⟩ := List.forall_mem_cons.1 sized
    obtain ⟨fitsHere, fitsLater⟩ := List.forall_mem_cons.1 fits
    obtain ⟨apartHere, apartLater⟩ := List.forall_mem_cons.1 apart
    rw [← sizedHere] at fitsHere
    have kept := length_writeAt fitsHere
    show l.part (l.writeParts data rest (writeAt buffer (l.offset first) (data first))) rank = _
    rw [ih sizedLater (by rwa [kept]) apartLater]
    by_cases again : rank ∈ rest
    · simp [again]
    · by_cases same : rank = first
      · subst same
        simp only [again, if_false, List.mem_cons_self, if_true, part, ← sizedHere]
        exact slice_writeAt_self fitsHere
      · have away := apartHere (Ne.symm same)
        simp only [Apart, ← sizedHere] at away
        simp only [again, if_false, List.mem_cons, same, or_self, part]
        exact slice_writeAt_apart fitsHere away

end writeParts

/-- The parts of a packed buffer, one after the other, are the buffer. -/
theorem flatMap_part_packed {counts : List Nat} {buffer : List α}
    (full : buffer.length = totalCount counts) :
    (List.range counts.length).flatMap ((packed counts).part buffer) = buffer := by
  -- the first parts are the front of the buffer
  have upTo : ∀ k ≤ counts.length, (List.range k).flatMap ((packed counts).part buffer) =
      buffer.take (totalCount (counts.take k)) := by
    intro k within
    induction k with
    | zero => simp [totalCount]
    | succ k ih =>
      rw [List.range_succ, List.flatMap_append, ih (Nat.le_of_succ_le within),
        totalCount_take_succ within, List.take_add]
      simp [part, slice, packed_offset within, packed_count]
  rw [upTo _ (Nat.le_refl _), List.take_length, ← full, List.take_length]

/-- Taking lists apart again that were put one after the other. -/
theorem part_packed_flatten {lists : List (List α)} {rank : Nat} (inside : rank < lists.length) :
    (packed (lists.map List.length)).part lists.flatten rank = lists[rank] := by
  have front : totalCount ((lists.map List.length).take rank) =
      (lists.take rank).flatten.length := by
    rw [← List.map_take, totalCount_map_length]
  have split : lists.flatten =
      (lists.take rank).flatten ++ (lists[rank] ++ (lists.drop (rank + 1)).flatten) := by
    conv => lhs; rw [← List.take_append_drop rank lists, List.flatten_append,
      List.drop_eq_getElem_cons inside, List.flatten_cons]
  have count : (lists.map List.length).getD rank 0 = lists[rank].length := by
    simp [List.getD_eq_getElem?_getD, inside]
  rw [part, packed_offset (by simpa using inside), packed_count, front, slice, split,
    List.drop_left, count, List.take_left]

theorem part_uniform_flatten {lists : List (List α)} {size count rank : Nat}
    (whole : lists.length = size) (each : ∀ list ∈ lists, list.length = count)
    (inside : rank < size) :
    (packed (List.replicate size count)).part lists.flatten rank = lists[rank] := by
  have counts : lists.map List.length = List.replicate size count := by
    rw [List.eq_replicate_iff]
    exact ⟨(List.length_map _).trans whole, by simpa using each⟩
  rw [← counts]
  exact part_packed_flatten (whole ▸ inside)

theorem part_ones {cells : List α} {size rank : Nat} (whole : cells.length = size)
    (inside : rank < size) :
    (packed (List.replicate size 1)).part cells rank = [cells[rank]] := by
  have alone : (cells.map fun cell => [cell]).flatten = cells := by
    rw [← List.flatMap_def, ← List.map_eq_flatMap, List.map_id']
  have each : ∀ list ∈ cells.map fun cell => [cell], list.length = 1 := by simp
  have here := part_uniform_flatten ((List.length_map _).trans whole) each inside
  rwa [alone, List.getElem_map] at here

/-! ## Units -/

@[simp] theorem count_scale (l : Layout) (width rank : Nat) :
    (l.scale width).count rank = l.count rank * width := getD_map_mul _ _ _

@[simp] theorem offset_scale (l : Layout) (width rank : Nat) :
    (l.scale width).offset rank = l.offset rank * width := getD_map_mul _ _ _

theorem nonempty_scale {width : Nat} (wide : 0 < width) (l : Layout) (ranks : List Nat) :
    (l.scale width).nonempty ranks = l.nonempty ranks := by
  simp [nonempty, Nat.mul_pos_iff_of_pos_right wide]

theorem check_scale {l : Layout} {what : String} {size length : Nat}
    (passed : l.check what size length = .ok ()) (width : Nat) (label : String) :
    (l.scale width).check label size (length * width) = .ok () := by
  obtain ⟨counts, offsets, fits⟩ := check_eq_ok_iff.1 passed
  refine check_eq_ok_iff.2 ⟨by simpa [scale], by simpa [scale], fun rank inside => ?_⟩
  rw [offset_scale, count_scale, ← Nat.add_mul]
  exact Nat.mul_le_mul_right width (fits rank inside)

theorem Apart.scale {l : Layout} {one other : Nat} (apart : l.Apart one other) (width : Nat) :
    (l.scale width).Apart one other := by
  simp only [Apart, offset_scale, count_scale, ← Nat.add_mul]
  exact apart.imp (Nat.mul_le_mul_right width) (Nat.mul_le_mul_right width)

section Cell

variable [Cell α] [LawfulCell α]

/-- A part in bytes is the encoding of the part in elements. -/
theorem part_encodeAll (l : Layout) (cells : List α) (rank : Nat) :
    (l.scale (Cell.width α)).part (Cell.encodeAll cells) rank =
      Cell.encodeAll (l.part cells rank) := by
  rw [part, offset_scale, count_scale, Cell.slice_encodeAll, part]

theorem writeParts_encodeAll (l : Layout) (data : Nat → List α) (ranks : List Nat)
    (cells : List α) :
    (l.scale (Cell.width α)).writeParts (fun rank => Cell.encodeAll (data rank)) ranks
        (Cell.encodeAll cells) =
      Cell.encodeAll (l.writeParts data ranks cells) := by
  induction ranks generalizing cells with
  | nil => rfl
  | cons rank rest ih =>
    show (l.scale _).writeParts _ rest (writeAt _ ((l.scale _).offset rank) _) = _
    rw [offset_scale, Cell.writeAt_encodeAll, ih]
    rfl

end Cell

end Layout
end HaloVector
