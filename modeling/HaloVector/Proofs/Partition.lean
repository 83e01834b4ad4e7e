import Mathlib.Data.Set.Function
import Mathlib.Tactic.TFAE
import HaloVector.Proofs.Ownership

/-!
# Ranks partition the ids

The ranges of the ranks are a partition of all ids, in order. Ranges may be empty, and then
several bounds are the same.

* `partitionPoint` looks for a place among ordered items by halving, and
  `Extents.findOwner_eq_partitionPoint` says that the owner of an id is found that way.
* `Extents.seat` is where an id is: the rank that owns it, and its place there.
* `Extents.owners_partition`: all ways to ask for the owner of an id agree, and ids and seats
  correspond to each other in order.
-/

namespace HaloVector

/-! ## Halving -/

section halving

variable {α : Type} {passes : α → Bool} {items : List α} {low high point : Nat}

/-- The first place from `low` up to `high` where a test does not pass, for items that pass up
to some place and none from there on. Each step halves the places that are left. -/
def partitionPoint (passes : α → Bool) (items : List α) (low high : Nat) : Nat :=
  if low < high then
    if items[(low + high) / 2]?.any passes then
      partitionPoint passes items ((low + high) / 2 + 1) high
    else partitionPoint passes items low ((low + high) / 2)
  else low
termination_by high - low

/-- The point stays between `low` and `high`, and so it is what is left in the end. -/
theorem partitionPoint_eq (above : low ≤ point) (below : point ≤ high)
    (before : ∀ place < point, items[place]?.any passes)
    (after : ∀ place, point ≤ place → place < high → ¬items[place]?.any passes) :
    partitionPoint passes items low high = point := by
  fun_induction partitionPoint passes items low high with
  | case1 low high between passed ih =>
    have early : (low + high) / 2 < point := by
      by_contra late
      exact after _ (Nat.not_lt.1 late) (by omega) passed
    exact ih early below after
  | case2 low high between failed ih =>
    have late : point ≤ (low + high) / 2 := by
      by_contra early
      exact failed (before _ (Nat.not_le.1 early))
    exact ih above late fun place beyond inside => after place beyond (by omega)
  | case3 low high closed => exact Nat.le_antisymm above (Nat.le_trans below (Nat.not_lt.1 closed))

end halving

/-! ## Places in a range -/

namespace IdRange

variable {r : IdRange}

/-- Every place of a range is that of an id. -/
theorem exists_offset {place : Nat} (inside : place < r.length) (ordered : r.start ≤ r.stop) :
    ∃ id, r.contains id ∧ r.offset id = place := by
  rw [length_eq ordered] at inside
  have limited := r.stop.toNat_lt
  have fits : r.start.toNat + place < 2 ^ 64 := by omega
  let id := UInt64.ofNat (r.start.toNat + place)
  have value : id.toNat = r.start.toNat + place := UInt64.toNat_ofNat_of_lt' fits
  have held : r.contains id := by
    rw [contains_iff, UInt64.le_iff_toNat_le, UInt64.lt_iff_toNat_lt, value]
    omega
  refine ⟨id, held, ?_⟩
  rw [toNat_offset held, value, Nat.add_sub_cancel_left]

theorem offset_lt_offset {id other : UInt64} (held : r.contains id) (again : r.contains other)
    (ordered : id < other) : r.offset id < r.offset other := by
  have above := UInt64.le_iff_toNat_le.1 (contains_iff.1 held).1
  rw [UInt64.lt_iff_toNat_lt] at ordered
  rw [toNat_offset held, toNat_offset again]
  omega

end IdRange

/-! ## Owners and places -/

namespace Extents

variable {e : Extents} {id one other : UInt64} {rank : Nat}

theorem toLocal?_eq_some_iff {place : Nat} :
    e.toLocal? id rank = some place ↔
      ∃ own, e.range rank = .ok own ∧ own.contains id ∧ own.offset id = place := by
  simp only [toLocal?, Option.map_eq_some_iff, Option.filter_eq_some_iff, range_eq_ok_iff,
    and_assoc]

theorem rangeAt_ordered (inside : rank < e.numRanks) :
    (e.rangeAt rank).start ≤ (e.rangeAt rank).stop := by
  cases rank with
  | zero => exact UInt64.zero_le
  | succ rank => exact ends_mono (Nat.le_succ rank) inside

theorem localSize_eq_rangeAt (inside : rank < e.numRanks) :
    e.localSize rank = .ok (e.rangeAt rank).length := by
  rw [localSize, range_eq inside]
  rfl

theorem contains_ownerOf (known : id < e.globalSize) :
    (e.rangeAt (e.ownerOf id)).contains id :=
  contains_rangeAt_of_findOwner (findOwner_eq known)

theorem findOwner_of_beyond (beyond : e.globalSize ≤ id) :
    e.findOwner id = .error (.invalidGlobalId id e.globalSize) := if_pos beyond

/-- The range of the owner is the first to end above the id. -/
theorem first_above_ownerOf (known : id < e.globalSize) :
    id < e.ends.getD (e.ownerOf id) 0 ∧
      ∀ before < e.ownerOf id, e.ends.getD before 0 ≤ id :=
  (findIdx_eq_iff (ownerOf_lt known)).1 rfl

theorem ownerOf_mono (ordered : one ≤ other) (known : other < e.globalSize) :
    e.ownerOf one ≤ e.ownerOf other := by
  by_contra reversed
  obtain ⟨ahead, -⟩ := first_above_ownerOf known
  obtain ⟨-, passed⟩ := first_above_ownerOf (UInt64.lt_of_le_of_lt ordered known)
  have ended := passed _ (Nat.not_le.1 reversed)
  exact UInt64.not_lt.2 (UInt64.le_trans ended ordered) ahead

theorem any_bounds_succ_iff (inside : rank < e.numRanks) :
    e.bounds[rank + 1]?.any (· ≤ id) ↔ e.ends.getD rank 0 ≤ id := by
  rw [bounds, List.getElem?_cons_succ, List.getD_eq_getElem?_getD,
    List.getElem?_eq_getElem inside]
  exact decide_eq_true_iff

/-- The owner of an id comes right before the first bound above it, and halving finds this
bound. -/
theorem findOwner_eq_partitionPoint (known : id < e.globalSize) :
    e.findOwner id = .ok (partitionPoint (· ≤ id) e.bounds 0 e.bounds.length - 1) := by
  have inside := ownerOf_lt known
  obtain ⟨ahead, passed⟩ := first_above_ownerOf known
  have point : partitionPoint (· ≤ id) e.bounds 0 e.bounds.length = e.ownerOf id + 1 := by
    refine partitionPoint_eq (Nat.zero_le _) (Nat.succ_le_succ (Nat.le_of_lt inside)) ?_ ?_
    · intro place early
      cases place with
      | zero => exact decide_eq_true (UInt64.zero_le : 0 ≤ id)
      | succ place =>
        have before := Nat.lt_of_succ_lt_succ early
        exact (any_bounds_succ_iff (before.trans inside)).2 (passed place before)
    · intro place late within
      cases place with
      | zero => cases late
      | succ place =>
        have counted : place < e.numRanks := Nat.lt_of_succ_lt_succ within
        rw [any_bounds_succ_iff counted, UInt64.not_le]
        exact UInt64.lt_of_lt_of_le ahead (ends_mono (Nat.le_of_succ_le_succ late) counted)
  rw [point, findOwner_eq known, Nat.add_sub_cancel]

/-! ## Seats -/

/-- Where an id is: the rank that owns it, and its place there. -/
def seat (e : Extents) (id : UInt64) : Nat × Nat :=
  (e.ownerOf id, (e.rangeAt (e.ownerOf id)).offset id)

/-- The places that all ranks have. -/
def seats (e : Extents) : Set (Nat × Nat) :=
  {seat | seat.1 < e.numRanks ∧ ∃ size, e.localSize seat.1 = .ok size ∧ seat.2 < size}

theorem toLocal?_seat (known : id < e.globalSize) :
    e.toLocal? id (e.seat id).1 = some (e.seat id).2 :=
  toLocal?_eq_some_iff.2 ⟨_, range_eq (ownerOf_lt known), contains_ownerOf known, rfl⟩

theorem seat_mem_seats (known : id < e.globalSize) : e.seat id ∈ e.seats :=
  ⟨ownerOf_lt known, _, localSize_eq_rangeAt (ownerOf_lt known),
    IdRange.offset_lt (contains_ownerOf known)⟩

theorem seat_lt_seat (ordered : one < other) (known : other < e.globalSize) :
    Prod.Lex (· < ·) (· < ·) (e.seat one) (e.seat other) := by
  have both := UInt64.lt_trans ordered known
  rcases Nat.lt_or_eq_of_le (ownerOf_mono (UInt64.le_of_lt ordered) known) with apart | same
  · exact .left _ _ apart
  · have held := contains_ownerOf known
    rw [← same] at held
    rw [seat, seat, ← same]
    exact .right _ (IdRange.offset_lt_offset (contains_ownerOf both) held ordered)

theorem bijOn_seat : Set.BijOn e.seat {id | id < e.globalSize} e.seats := by
  refine ⟨fun id known => seat_mem_seats known, fun one known other again same => ?_, ?_⟩
  · obtain ⟨owners, places⟩ := Prod.mk.inj same
    have held := contains_ownerOf again
    rw [← owners] at held places
    exact (IdRange.offset_inj (contains_ownerOf known) held).1 places
  · rintro ⟨rank, place⟩ ⟨inside, size, sized, small⟩
    rw [localSize_eq_rangeAt inside] at sized
    cases sized
    obtain ⟨id, held, placed⟩ := IdRange.exists_offset small (rangeAt_ordered inside)
    have found := (contains_rangeAt_iff inside).1 held
    have known := lt_globalSize_of_findOwner found
    cases (findOwner_eq known).symm.trans found
    exact ⟨id, known, Prod.ext rfl placed⟩

/-! ## Partition -/

theorem owner_lookups_agree (e : Extents) (id : UInt64) (rank : Nat) :
    [e.findOwner id = .ok rank,
      e.isOwnedBy id rank = true,
      ∃ own, e.range rank = .ok own ∧ own.contains id,
      ∃ own, e.range rank = .ok own ∧
        e.toLocal? id rank = some (id.toNat - own.start.toNat)].TFAE := by
  tfae_have 1 ↔ 2 := isOwnedBy_iff.symm
  tfae_have 1 ↔ 3 := findOwner_eq_ok_iff
  tfae_have 3 → 4 := fun ⟨own, ranged, held⟩ =>
    ⟨own, ranged, toLocal?_eq_some_iff.2 ⟨own, ranged, held, IdRange.toNat_offset held⟩⟩
  tfae_have 4 → 3 := fun ⟨_, _, placed⟩ =>
    let ⟨own, ranged, held, _⟩ := toLocal?_eq_some_iff.1 placed
    ⟨own, ranged, held⟩
  tfae_finish

/-- An id is owned by one rank, which is not empty, if it is known, and by none otherwise. All
ways to ask for the owner agree, also halving. Ids and the places of the ranks correspond to
each other, and in the same order. -/
theorem owners_partition (e : Extents) :
    (∀ id rank, [e.findOwner id = .ok rank,
      e.isOwnedBy id rank = true,
      ∃ own, e.range rank = .ok own ∧ own.contains id,
      ∃ own, e.range rank = .ok own ∧
        e.toLocal? id rank = some (id.toNat - own.start.toNat)].TFAE) ∧
    (∀ id, id < e.globalSize →
      e.findOwner id = .ok (partitionPoint (· ≤ id) e.bounds 0 e.bounds.length - 1) ∧
      ∃ rank, e.isOwnedBy id rank = true ∧
        (∀ other, e.isOwnedBy id other = true → other = rank) ∧
        ∃ size, e.localSize rank = .ok size ∧ 0 < size) ∧
    (∀ id, e.globalSize ≤ id →
      e.findOwner id = .error (.invalidGlobalId id e.globalSize) ∧
      ∀ rank, e.isOwnedBy id rank = false) ∧
    (∀ id, id < e.globalSize →
      e.findOwner id = .ok (e.seat id).1 ∧ e.toLocal? id (e.seat id).1 = some (e.seat id).2) ∧
    (∀ one other, one < other → other < e.globalSize →
      Prod.Lex (· < ·) (· < ·) (e.seat one) (e.seat other)) ∧
    Set.BijOn e.seat {id | id < e.globalSize} e.seats := by
  refine ⟨e.owner_lookups_agree, fun id known => ⟨findOwner_eq_partitionPoint known, ?_⟩,
    fun id beyond => ⟨findOwner_of_beyond beyond, fun rank => ?_⟩,
    fun id known => ⟨findOwner_eq known, toLocal?_seat known⟩,
    fun one other => seat_lt_seat, bijOn_seat⟩
  · have owned : e.isOwnedBy id (e.ownerOf id) := isOwnedBy_iff.2 (findOwner_eq known)
    obtain ⟨-, size, sized, place⟩ := seat_mem_seats known
    refine ⟨e.ownerOf id, owned, fun other again => ?_, size, sized, Nat.zero_lt_of_lt place⟩
    cases (isOwnedBy_iff.1 again).symm.trans (findOwner_eq known)
    rfl
  · rw [Bool.eq_false_iff]
    intro owned
    exact UInt64.not_lt.2 beyond (lt_globalSize_of_findOwner (isOwnedBy_iff.1 owned))

theorem owners_partition_gaps :
    ∃ e : Extents, e.bounds = [0, 0, 2, 2, 3, 3] ∧
      (∃ own, e.range 3 = .ok own ∧ e.toLocal? 2 3 = some ((2 : UInt64).toNat - own.start.toNat)) ∧
      e.findOwner 2 = .ok (partitionPoint (· ≤ 2) e.bounds 0 e.bounds.length - 1) ∧
      e.findOwner 3 = .error (.invalidGlobalId 3 3) ∧
      Prod.Lex (· < ·) (· < ·) (e.seat 1) (e.seat 2) ∧
      ∃ id, id < e.globalSize ∧ e.seat id = (1, 1) := by
  let e : Extents := ⟨[0, 2, 2, 3, 3], by decide, by decide⟩
  obtain ⟨lookups, owned, beyond, -, ordered, correspond⟩ := owners_partition e
  obtain ⟨id, known, placed⟩ :=
    correspond.surjOn (show (1, 1) ∈ e.seats from ⟨by decide, 2, rfl, by decide⟩)
  exact ⟨e, rfl, ((lookups 2 3).out 0 3).1 rfl, (owned 2 (by decide)).1,
    (beyond 3 (by decide)).1, ordered 1 2 (by decide) (by decide), id, known, placed⟩

end Extents
end HaloVector
