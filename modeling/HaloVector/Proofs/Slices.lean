import Mathlib.Data.Finset.Lattice.Fold
import Mathlib.Data.Finset.Range
import Mathlib.Order.Lattice.Nat
import HaloVector.Proofs.Delivery

/-!
# Slices

Layouts need not be packed. The parts that a rank sends may have gaps between them and may
overlap, and those that it receives may have gaps. An exchange moves the declared slices
and touches nothing else.

* `Layout.Filled` says what a buffer is after the parts of all ranks were written to it.
* `Group.exchange_moves_slices`: all ranks of a group end so, under every schedule, in
  elements and in bytes.
-/

namespace HaloVector

namespace Layout

variable {α : Type} {l : Layout} {data : Nat → List α} {ranks : List Nat} {buffer : List α}

/-- The index is in the part of the rank. -/
def Holds (l : Layout) (rank index : Nat) : Prop :=
  l.offset rank ≤ index ∧ index < l.offset rank + l.count rank

instance (l : Layout) (rank index : Nat) : Decidable (l.Holds rank index) :=
  inferInstanceAs (Decidable (_ ∧ _))

/-- The parts of different ranks, out of the first `size`, have no index in common. -/
def Disjoint (l : Layout) (size : Nat) : Prop :=
  ∀ one < size, ∀ other < size, ∀ index, l.Holds one index → l.Holds other index → one = other

theorem disjoint_of_apart {size : Nat}
    (apart : ∀ one < size, ∀ other < size, one ≠ other → l.Apart one other) : l.Disjoint size := by
  rintro one inside other within index ⟨_, _⟩ ⟨_, _⟩
  by_contra distinct
  rcases apart one inside other within distinct with _ | _ <;> omega

/-- What a buffer has become: every rank's slice is in its part, and the rest is as it was. -/
structure Filled (size : Nat) (l : Layout) (slices : Nat → List α) (before after : List α) :
    Prop where
  length_eq : after.length = before.length
  part_eq : ∀ source < size, l.part after source = slices source
  outside_eq : ∀ index, (∀ source < size, ¬ l.Holds source index) →
    after[index]? = before[index]?

theorem getElem?_writeParts_of_not_holds
    (sized : ∀ rank ∈ ranks, (data rank).length = l.count rank)
    (fits : ∀ rank ∈ ranks, l.offset rank + l.count rank ≤ buffer.length) {index : Nat}
    (outside : ∀ rank ∈ ranks, ¬ l.Holds rank index) :
    (l.writeParts data ranks buffer)[index]? = buffer[index]? := by
  induction ranks generalizing buffer with
  | nil => rfl
  | cons rank rest ih =>
    obtain ⟨sizedHere, sizedLater⟩ := List.forall_mem_cons.1 sized
    obtain ⟨fitsHere, fitsLater⟩ := List.forall_mem_cons.1 fits
    obtain ⟨outsideHere, outsideLater⟩ := List.forall_mem_cons.1 outside
    rw [← sizedHere] at fitsHere
    have kept := length_writeAt fitsHere
    show (l.writeParts data rest (writeAt buffer _ _))[index]? = _
    rw [ih sizedLater (by rwa [kept]) outsideLater, getElem?_writeAt fitsHere, sizedHere]
    exact if_neg outsideHere

/-- An index that one of the ranks holds, and no other, has what was written for that rank. -/
theorem getElem?_writeParts_of_holds
    (sized : ∀ rank ∈ ranks, (data rank).length = l.count rank)
    (fits : ∀ rank ∈ ranks, l.offset rank + l.count rank ≤ buffer.length) {rank index : Nat}
    (member : rank ∈ ranks) (held : l.Holds rank index)
    (alone : ∀ other ∈ ranks, l.Holds other index → other = rank) :
    (l.writeParts data ranks buffer)[index]? = (data rank)[index - l.offset rank]? := by
  induction ranks generalizing buffer with
  | nil => cases member
  | cons first rest ih =>
    obtain ⟨sizedHere, sizedLater⟩ := List.forall_mem_cons.1 sized
    obtain ⟨fitsHere, fitsLater⟩ := List.forall_mem_cons.1 fits
    obtain ⟨aloneHere, aloneLater⟩ := List.forall_mem_cons.1 alone
    rw [← sizedHere] at fitsHere
    have kept := length_writeAt fitsHere
    show (l.writeParts data rest (writeAt buffer _ _))[index]? = _
    by_cases again : rank ∈ rest
    · exact ih sizedLater (by rwa [kept]) again aloneLater
    · obtain rfl : rank = first := (List.mem_cons.1 member).resolve_right again
      have outside : ∀ other ∈ rest, ¬ l.Holds other index :=
        fun other present holds => again (aloneLater other present holds ▸ present)
      rw [getElem?_writeParts_of_not_holds sizedLater (by rwa [kept]) outside,
        getElem?_writeAt fitsHere, sizedHere]
      exact if_pos held

/-- A part that shares no index with the others has what was written for it. -/
theorem part_writeParts_of_alone
    (sized : ∀ rank ∈ ranks, (data rank).length = l.count rank)
    (fits : ∀ rank ∈ ranks, l.offset rank + l.count rank ≤ buffer.length) {rank : Nat}
    (whole : (data rank).length = l.count rank) (member : 0 < l.count rank → rank ∈ ranks)
    (alone : ∀ index, l.Holds rank index → ∀ other ∈ ranks, l.Holds other index → other = rank) :
    l.part (l.writeParts data ranks buffer) rank = data rank := by
  apply List.ext_getElem?
  intro i
  rw [part, slice, List.getElem?_take, List.getElem?_drop]
  split
  · rename_i below
    have held : l.Holds rank (l.offset rank + i) := ⟨by omega, by omega⟩
    rw [getElem?_writeParts_of_holds sized fits (member (Nat.zero_lt_of_lt below)) held
      (alone _ held), Nat.add_sub_cancel_left]
  · rename_i beyond
    exact (List.getElem?_eq_none (by omega)).symm

theorem foldl_max_map_range (ends : Nat → Nat) (size : Nat) :
    ((List.range size).map ends).foldl max 0 = (Finset.range size).sup ends := by
  induction size with
  | zero => rfl
  | succ size ih =>
    rw [List.range_succ, List.map_append, List.foldl_append, ih, Finset.range_add_one,
      Finset.sup_insert]
    exact Nat.max_comm _ _

/-- A layout extends to the greatest end of its parts. -/
theorem extent_eq_sup {size : Nat} (counts : l.counts.length = size)
    (offsets : l.offsets.length = size) :
    l.extent = (Finset.range size).sup fun source => l.offset source + l.count source := by
  rw [← foldl_max_map_range, extent]
  congr 1
  apply List.ext_getElem
  · simp [counts, offsets]
  · intro source within _
    rw [List.length_zipWith, counts, offsets, Nat.min_self] at within
    simp [offset, count, List.getD_eq_getElem?_getD, counts, offsets, within, Nat.add_comm]

end Layout

namespace Group

variable {size : Nat}

/-- Layouts by which the ranks of a group take apart what they send and put together what they
receive. They pass the check of the exchange. Parts to be received do not overlap, and two
ranks agree on how much goes from one to the other. -/
structure Matched (size : Nat) (held room : Nat → Nat) (outgoing incoming : Nat → Layout) :
    Prop where
  sends : ∀ rank < size,
    (outgoing rank).check "all-to-all send layout" size (held rank) = .ok ()
  receives : ∀ rank < size,
    (incoming rank).check "all-to-all recv layout" size (room rank) = .ok ()
  disjoint : ∀ rank < size, (incoming rank).Disjoint size
  paired : ∀ source < size, ∀ target < size,
    (outgoing source).count target = (incoming target).count source

/-- The parts of the contributors are all parts that have elements. -/
theorem filled_writeParts {α : Type} {held room : Nat → Nat} {outgoing incoming : Nat → Layout}
    (matched : Matched size held room outgoing incoming) {sent : Nat → List α}
    (whole : ∀ rank < size, (sent rank).length = held rank) {rank : Nat} (inside : rank < size)
    {buffer : List α} (fits : buffer.length = room rank) :
    (incoming rank).Filled size (fun source => (outgoing source).part (sent source) rank) buffer
      ((incoming rank).writeParts (fun source => (outgoing source).part (sent source) rank)
        (contributors size (incoming rank) rank) buffer) := by
  let layout := incoming rank
  let ranks := contributors size layout rank
  have ends : ∀ source < size, layout.offset source + layout.count source ≤ buffer.length :=
    fun source within => fits ▸ Layout.fits_of_check (matched.receives rank inside) within
  have sizes : ∀ source < size,
      ((outgoing source).part (sent source) rank).length = layout.count source := by
    intro source within
    rw [← matched.paired source within rank inside]
    refine Layout.length_part ?_
    rw [whole source within]
    exact Layout.fits_of_check (matched.sends source within) inside
  have within : ∀ source ∈ ranks, source < size := fun _ => lt_of_mem_contributors inside
  have sized : ∀ source ∈ ranks, _ := fun source member => sizes source (within source member)
  have fitting : ∀ source ∈ ranks, _ := fun source member => ends source (within source member)
  have length_eq := Layout.length_writeParts sized fitting
  refine ⟨length_eq, fun source bound => ?_, fun index outside => ?_⟩
  · exact Layout.part_writeParts_of_alone sized fitting (sizes source bound)
      (mem_contributors_of_pos bound) fun index held other member holds =>
        matched.disjoint rank inside other (within other member) source bound index holds held
  · exact Layout.getElem?_writeParts_of_not_holds sized fitting
      fun source member => outside source (within source member)

/-- Every rank ends with the declared slices of all ranks in their parts. A buffer of elements
is as long as the greatest end of a part and zero in the gaps; a buffer of bytes is the
caller's, and keeps what is in its gaps. -/
theorem exchange_moves_slices (size : Nat) (tag : Tag) :
    (∀ {α : Type} [Cell α] [LawfulCell α] (sent : Nat → List α) (outgoing incoming : Nat → Layout),
      Matched size (fun rank => (sent rank).length) (fun rank => (incoming rank).extent) outgoing
        incoming →
      ∃ received : Nat → List α,
        Settles size
          (fun rank => (exchange (.member rank size) (sent rank) (outgoing rank) (incoming rank)
            tag).run)
          (fun rank => .ok (received rank)) ∧
        ∀ rank < size, (incoming rank).Filled size
          (fun source => (outgoing source).part (sent source) rank)
          (List.replicate ((Finset.range size).sup fun source =>
            (incoming rank).offset source + (incoming rank).count source) (Cell.zero α))
          (received rank)) ∧
    ∀ (sent buffer : Nat → Bytes) (outgoing incoming : Nat → Layout),
      Matched size (fun rank => (sent rank).length) (fun rank => (buffer rank).length) outgoing
        incoming →
      ∃ received : Nat → Bytes,
        Settles size
          (fun rank => exchangeBytes (.member rank size) (sent rank) (outgoing rank) (buffer rank)
            (incoming rank) tag)
          (fun rank => ⟨received rank, .ok ()⟩) ∧
        ∀ rank < size, (incoming rank).Filled size
          (fun source => (outgoing source).part (sent source) rank) (buffer rank)
          (received rank) := by
  refine ⟨fun sent outgoing incoming matched => ?_, fun sent buffer outgoing incoming matched => ?_⟩
  · refine ⟨_, settles_exchange sent tag matched.sends matched.receives matched.paired,
      fun rank inside => ?_⟩
    obtain ⟨counts, offsets, -⟩ := Layout.check_eq_ok_iff.1 (matched.receives rank inside)
    rw [← Layout.extent_eq_sup counts offsets]
    exact filled_writeParts matched (fun _ _ => rfl) inside List.length_replicate
  · have fitting : ∀ rank < size, checkLayouts size (sent rank) (outgoing rank) (buffer rank)
        (incoming rank) = .ok () := by
      intro rank inside
      rw [checkLayouts, matched.sends rank inside]
      exact matched.receives rank inside
    exact ⟨_, settles_exchangeBytes tag fitting matched.paired,
      fun rank inside => filled_writeParts matched (fun _ _ => rfl) inside rfl⟩

/-- The first rank sends its middle element twice, in parts that overlap. -/
def sharedLayouts : Nat → Layout
  | 0 => ⟨[1, 2], [1, 1]⟩
  | _ => ⟨[1, 0], [0, 0]⟩

/-- Both ranks receive with gaps, the first one its own part behind that of the second. -/
def gappedLayouts : Nat → Layout
  | 0 => ⟨[1, 1], [3, 1]⟩
  | _ => ⟨[2, 0], [1, 0]⟩

theorem matched_gapped {held room : Nat → Nat}
    (sends : ∀ rank < 2,
      (sharedLayouts rank).check "all-to-all send layout" 2 (held rank) = .ok ())
    (receives : ∀ rank < 2,
      (gappedLayouts rank).check "all-to-all recv layout" 2 (room rank) = .ok ()) :
    Matched 2 held room sharedLayouts gappedLayouts := by
  have apart : ∀ rank < 2, ∀ one < 2, ∀ other < 2, one ≠ other →
      (gappedLayouts rank).Apart one other := by
    unfold Layout.Apart
    decide
  exact ⟨sends, receives, fun rank inside => Layout.disjoint_of_apart (apart rank inside),
    by decide⟩

theorem exchange_moves_slices_gapped :
    (∃ received : Nat → List UInt16,
      Settles 2
        (fun rank => (exchange (.member rank 2) ([[10, 20, 30], [40]].getD rank [])
          (sharedLayouts rank) (gappedLayouts rank) default).run)
        (fun rank => .ok (received rank)) ∧
      (received 0).length = 4 ∧ slice (received 0) 3 1 = [20] ∧ slice (received 0) 1 1 = [40] ∧
      (received 0)[2]? = some 0 ∧
      (received 1).length = 3 ∧ slice (received 1) 1 2 = [20, 30]) ∧
    ∃ received : Nat → Bytes,
      Settles 2
        (fun rank => exchangeBytes (.member rank 2) ([[10, 20, 30], [40]].getD rank [])
          (sharedLayouts rank) (List.replicate 5 9) (gappedLayouts rank) default)
        (fun rank => ⟨received rank, .ok ()⟩) ∧
      slice (received 0) 3 1 = [20] ∧ (received 0)[2]? = some 9 ∧ (received 0)[4]? = some 9 := by
  obtain ⟨elements, bytes⟩ := exchange_moves_slices 2 default
  obtain ⟨received, settled, filled⟩ := elements (α := UInt16)
    (fun rank => [[10, 20, 30], [40]].getD rank []) _ _ (matched_gapped (by decide) (by decide))
  obtain ⟨filling, moved, kept⟩ := bytes (fun rank => [[10, 20, 30], [40]].getD rank [])
    (fun _ => List.replicate 5 9) _ _ (matched_gapped (by decide) (by decide))
  refine ⟨⟨received, settled, ?_⟩, filling, moved, ?_⟩
  · have first := filled 0 (by decide)
    have second := filled 1 (by decide)
    exact ⟨first.length_eq.trans (by decide), (first.part_eq 0 (by decide)).trans (by decide),
      (first.part_eq 1 (by decide)).trans (by decide),
      (first.outside_eq 2 (by decide)).trans (by decide),
      second.length_eq.trans (by decide), (second.part_eq 0 (by decide)).trans (by decide)⟩
  · have first := kept 0 (by decide)
    exact ⟨(first.part_eq 0 (by decide)).trans (by decide),
      (first.outside_eq 2 (by decide)).trans (by decide),
      (first.outside_eq 4 (by decide)).trans (by decide)⟩

end Group
end HaloVector
