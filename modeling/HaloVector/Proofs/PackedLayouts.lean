import HaloVector.Proofs.Slices

/-!
# Packed layouts

Running sums lay the parts of a buffer side by side. A part without elements takes no room,
wherever it is. The same holds in every unit that elements may be measured in, because a packed
layout in smaller units is the packed layout of the smaller units (`Layout.scale_packed`).

* `Layout.Tiles`: the parts follow each other and make up all of the buffer.
* `Layout.Snug`: the layout tiles a buffer, is accepted for it, and needs all of it.
* `Layout.packed_parts_tile`: packed layouts are snug in elements and in smaller units, and lists
  that were packed come back.
-/

namespace HaloVector

/-! ## Scaled sums -/

theorem totalCount_map_mul (counts : List Nat) (width : Nat) :
    totalCount (counts.map (· * width)) = totalCount counts * width := by
  induction counts with
  | nil => simp [totalCount]
  | cons count rest ih => rw [List.map_cons, totalCount, ih, totalCount, Nat.add_mul]

theorem displacementsFrom_map_mul (start : Nat) (counts : List Nat) (width : Nat) :
    displacementsFrom (start * width) (counts.map (· * width)) =
      (displacementsFrom start counts).map (· * width) := by
  induction counts generalizing start with
  | nil => rfl
  | cons count rest ih =>
    rw [List.map_cons, displacementsFrom, displacementsFrom, List.map_cons, ← ih, Nat.add_mul]

namespace Layout

theorem scale_packed (counts : List Nat) (width : Nat) :
    (packed counts).scale width = packed (counts.map (· * width)) := by
  have sums := displacementsFrom_map_mul 0 counts width
  rw [Nat.zero_mul] at sums
  exact congrArg (Layout.mk _) sums.symm

/-! ## Tiling -/

/-- The parts of the first `size` ranks lie side by side and make up a buffer. -/
structure Tiles (l : Layout) (size length : Nat) : Prop where
  ordered : ∀ one other, one < other → other < size →
    l.offset one + l.count one ≤ l.offset other
  disjoint : l.Disjoint size
  /-- The indices of all parts, one after the other, are those of the buffer. -/
  covers : (List.range size).flatMap (fun rank => List.range' (l.offset rank) (l.count rank)) =
    List.range length

theorem part_range {l : Layout} {rank length : Nat}
    (fits : l.offset rank + l.count rank ≤ length) :
    l.part (List.range length) rank = List.range' (l.offset rank) (l.count rank) := by
  have whole : (l.part (List.range length) rank).length = l.count rank :=
    length_part (by rwa [List.length_range])
  refine List.ext_getElem (by rw [whole, List.length_range']) fun place _ _ => ?_
  simp [part, slice]

theorem tiles_packed (counts : List Nat) :
    (packed counts).Tiles counts.length (totalCount counts) where
  ordered one other below inside := by
    rw [packed_stop (Nat.lt_trans below inside), packed_offset inside]
    exact totalCount_take_mono counts below
  disjoint := disjoint_of_apart fun _ insideOne _ insideOther distinct =>
    packed_apart distinct insideOne insideOther
  covers := by
    refine Eq.trans ?_ (flatMap_part_packed List.length_range)
    refine List.flatMap_congr fun rank member => (part_range ?_).symm
    exact packed_fits (List.mem_range.1 member)

/-- The layout describes a buffer of the given length and leaves no room in it. -/
structure Snug (l : Layout) (size length : Nat) : Prop where
  tiles : l.Tiles size length
  /-- Every end is a word. -/
  bounded : ∀ rank < size, l.offset rank + l.count rank ≤ lastIndex
  passes : ∀ what, l.check what size length = .ok ()
  extent_eq : l.extent = length

theorem snug_packed {counts : List Nat} (small : totalCount counts ≤ lastIndex) :
    (packed counts).Snug counts.length (totalCount counts) where
  tiles := tiles_packed counts
  bounded _ inside := Nat.le_trans (packed_fits inside) small
  passes _ := check_packed rfl (Nat.le_refl _)
  extent_eq := extent_packed counts

theorem snug_scale_packed {counts : List Nat} {width : Nat}
    (small : totalCount counts * width ≤ lastIndex) :
    ((packed counts).scale width).Snug counts.length (totalCount counts * width) := by
  rw [← totalCount_map_mul] at small ⊢
  have snug := snug_packed small
  rwa [List.length_map, ← scale_packed] at snug

/-! ## Packing lists -/

theorem map_part_flatten (lists : List (List α)) :
    (List.range lists.length).map ((packed (lists.map List.length)).part lists.flatten) =
      lists := by
  refine List.ext_getElem (by simp) fun rank _ inside => ?_
  rw [List.getElem_map, List.getElem_range, part_packed_flatten inside]

theorem map_part_encodeAll_flatten [Cell α] [LawfulCell α] (lists : List (List α)) :
    (List.range lists.length).map (((packed (lists.map List.length)).scale (Cell.width α)).part
      (Cell.encodeAll lists.flatten)) = lists.map Cell.encodeAll := by
  conv => rhs; rw [← map_part_flatten lists, List.map_map]
  exact List.map_congr_left fun rank _ => part_encodeAll _ _ rank

/-- As long as all elements can be counted in a word, the parts of a packed layout tile a buffer
of just these elements. That buffer passes the check and is what the layout needs. All this stays
so if the elements are measured in smaller units, as long as these can be counted in a word.
Lists of the counted lengths that are put one after the other are found again in the parts, and so
are their encodings. -/
theorem packed_parts_tile (counts : List Nat) (small : totalCount counts ≤ lastIndex) :
    (packed counts).Snug counts.length (totalCount counts) ∧
    (∀ width, totalCount counts * width ≤ lastIndex →
      ((packed counts).scale width).Snug counts.length (totalCount counts * width)) ∧
    ∀ {α : Type} (lists : List (List α)), lists.map List.length = counts →
      (List.range counts.length).map ((packed counts).part lists.flatten) = lists ∧
      ∀ [Cell α] [LawfulCell α],
        (List.range counts.length).map
            (((packed counts).scale (Cell.width α)).part (Cell.encodeAll lists.flatten)) =
          lists.map Cell.encodeAll := by
  refine ⟨snug_packed small, fun width fits => snug_scale_packed fits, ?_⟩
  rintro α lists rfl
  rw [List.length_map]
  exact ⟨map_part_flatten lists, map_part_encodeAll_flatten lists⟩

/-- Parts without elements, in between and at the end. -/
theorem packed_parts_tile_gaps :
    totalCount [2, 0, 3, 0] ≤ lastIndex ∧
    (packed [2, 0, 3, 0]).Snug 4 5 ∧ ((packed [2, 0, 3, 0]).scale 8).Snug 4 40 ∧
    (List.range 4).map ((packed [2, 0, 3, 0]).part [6, 7, 8, 9, 10]) =
      [[6, 7], [], [8, 9, 10], []] := by
  have small : totalCount [2, 0, 3, 0] ≤ lastIndex := by decide
  obtain ⟨snug, scaled, recovered⟩ := packed_parts_tile [2, 0, 3, 0] small
  exact ⟨small, snug, scaled 8 (by decide), (recovered [[6, 7], [], [8, 9, 10], []] rfl).1⟩

end Layout
end HaloVector
