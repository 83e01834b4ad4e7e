import HaloVector.Extents
import HaloVector.RankMap

/-!
# Ownership

Every id below the global size is in the range of exactly one rank, and this is the
rank that `Extents.findOwner` names (`Extents.findOwner_eq_ok_iff`). Within a range the
places of ids are distinct and below its length (`IdRange.offset_lt`,
`IdRange.offset_inj`).

Whatever carries ids is sorted by their owners: each owner has its `share`
(`listOf_shares`).
-/

namespace HaloVector

/-! ## Places in a range -/

namespace IdRange

variable {r : IdRange} {id other : UInt64}

theorem toNat_offset (held : r.contains id) : r.offset id = id.toNat - r.start.toNat :=
  UInt64.toNat_sub_of_le id r.start (contains_iff.1 held).1

theorem length_eq (ordered : r.start ≤ r.stop) : r.length = r.stop.toNat - r.start.toNat :=
  UInt64.toNat_sub_of_le _ _ ordered

theorem offset_lt (held : r.contains id) : r.offset id < r.length := by
  obtain ⟨above, below⟩ := contains_iff.1 held
  have ordered : r.start ≤ r.stop := UInt64.le_trans above (UInt64.le_of_lt below)
  rw [toNat_offset held, length_eq ordered]
  rw [UInt64.le_iff_toNat_le] at above
  rw [UInt64.lt_iff_toNat_lt] at below
  omega

theorem offset_inj (held : r.contains id) (again : r.contains other) :
    r.offset id = r.offset other ↔ id = other := by
  have above := UInt64.le_iff_toNat_le.1 (contains_iff.1 held).1
  have aboveOther := UInt64.le_iff_toNat_le.1 (contains_iff.1 again).1
  rw [toNat_offset held, toNat_offset again, ← UInt64.toNat_inj]
  omega

end IdRange

/-! ## Owners -/

namespace Extents

variable {e : Extents} {rank : Nat}

/-- The range of a rank; ranks that there are not have an empty one. -/
def rangeAt (e : Extents) (rank : Nat) : IdRange := ⟨e.bounds.getD rank 0, e.ends.getD rank 0⟩

theorem range_eq (inside : rank < e.numRanks) : e.range rank = .ok (e.rangeAt rank) := by
  have inBounds : rank < e.bounds.length := Nat.lt_succ_of_lt inside
  rw [range_eq_ok_iff, ranges, List.getElem?_zipWith]
  simp [rangeAt, List.getD_eq_getElem?_getD, List.getElem?_eq_getElem inBounds,
    List.getElem?_eq_getElem inside]

theorem lt_numRanks_of_range {own : IdRange} (found : e.range rank = .ok own) :
    rank < e.numRanks := by
  rw [range_eq_ok_iff] at found
  have inside := (List.getElem?_eq_some_iff.1 found).1
  rwa [length_ranges] at inside

theorem ends_mono {one other : Nat} (before : one ≤ other) (inside : other < e.numRanks) :
    e.ends.getD one 0 ≤ e.ends.getD other 0 := by
  rcases Nat.lt_or_eq_of_le before with below | rfl
  · have ascending := List.pairwise_iff_getElem.1 e.ends_ascending one other
      (Nat.lt_trans below inside) inside below
    simpa [List.getD_eq_getElem?_getD, List.getElem?_eq_getElem inside,
      List.getElem?_eq_getElem (Nat.lt_trans below inside)] using ascending
  · exact UInt64.le_refl _

theorem globalSize_eq : e.globalSize = e.ends.getD (e.numRanks - 1) 0 := by
  rw [globalSize, List.getLast_eq_getElem, List.getD_eq_getElem?_getD, numRanks,
    List.getElem?_eq_getElem (Nat.sub_one_lt (Nat.ne_of_gt e.numRanks_pos)), Option.getD_some]

theorem contains_range_iff {id : UInt64} {own : IdRange} (found : e.range rank = .ok own) :
    own.contains id ↔ id < e.ends.getD rank 0 ∧ ∀ before < rank, e.ends.getD before 0 ≤ id := by
  have inside := lt_numRanks_of_range found
  rw [range_eq inside] at found
  cases found
  rw [IdRange.contains_iff, And.comm]
  refine and_congr_right fun below => ?_
  cases rank with
  | zero =>
    show (0 : UInt64) ≤ id ↔ _
    simp
  | succ rank =>
    show e.ends.getD rank 0 ≤ id ↔ _
    constructor
    · intro above before earlier
      exact UInt64.le_trans
        (ends_mono (Nat.le_of_lt_succ earlier) (Nat.lt_of_succ_lt inside)) above
    · exact fun above => above rank (Nat.lt_succ_self rank)

theorem findIdx_eq_iff {id : UInt64} (inside : rank < e.numRanks) :
    e.ends.findIdx (id < ·) = rank ↔
      id < e.ends.getD rank 0 ∧ ∀ before < rank, e.ends.getD before 0 ≤ id := by
  rw [List.findIdx_eq inside, List.getD_eq_getElem?_getD, List.getElem?_eq_getElem inside]
  refine and_congr (by simp) (forall_congr' fun before => forall_congr' fun earlier => ?_)
  rw [List.getD_eq_getElem?_getD, List.getElem?_eq_getElem (Nat.lt_trans earlier inside)]
  simp

/-- The owner of an id is the rank whose range holds it. -/
theorem findOwner_eq_ok_iff {id : UInt64} :
    e.findOwner id = .ok rank ↔ ∃ own, e.range rank = .ok own ∧ own.contains id := by
  have last : e.numRanks - 1 < e.numRanks := Nat.sub_one_lt (Nat.ne_of_gt e.numRanks_pos)
  unfold findOwner
  split
  · rename_i beyond
    refine ⟨nofun, ?_⟩
    rintro ⟨own, found, held⟩
    have inside := lt_numRanks_of_range found
    have below := ((contains_range_iff found).1 held).1
    have highest : e.ends.getD rank 0 ≤ e.globalSize := by
      rw [globalSize_eq]
      exact ends_mono (Nat.le_sub_one_of_lt inside) last
    have beneath := UInt64.lt_of_lt_of_le below (UInt64.le_trans highest beyond)
    exact absurd beneath (UInt64.lt_irrefl id)
  · rename_i within
    rw [UInt64.not_le, globalSize_eq] at within
    constructor
    · intro found
      have first : e.ends.findIdx (id < ·) = rank := Except.ok.inj found
      have inside : rank < e.numRanks := by
        rw [← first]
        refine List.findIdx_lt_length_of_exists ⟨_, List.getElem_mem last, ?_⟩
        simpa [List.getD_eq_getElem?_getD, List.getElem?_eq_getElem last] using within
      exact ⟨_, range_eq inside,
        (contains_range_iff (range_eq inside)).2 ((findIdx_eq_iff inside).1 first)⟩
    · rintro ⟨own, found, held⟩
      exact congrArg Except.ok
        ((findIdx_eq_iff (lt_numRanks_of_range found)).2 ((contains_range_iff found).1 held))

theorem isOwnedBy_iff {id : UInt64} : e.isOwnedBy id rank ↔ e.findOwner id = .ok rank := by
  rw [findOwner_eq_ok_iff, isOwnedBy, Option.any_eq_true]
  simp only [range_eq_ok_iff]

theorem isOwnedBy_eq_contains (inside : rank < e.numRanks) (id : UInt64) :
    e.isOwnedBy id rank = (e.rangeAt rank).contains id := by
  rw [isOwnedBy, range_eq_ok_iff.1 (range_eq inside), Option.any_some]

theorem contains_rangeAt_iff (inside : rank < e.numRanks) {id : UInt64} :
    (e.rangeAt rank).contains id ↔ e.findOwner id = .ok rank := by
  rw [← isOwnedBy_eq_contains inside, isOwnedBy_iff]

theorem contains_rangeAt_of_findOwner {id : UInt64} (found : e.findOwner id = .ok rank) :
    (e.rangeAt rank).contains id := by
  obtain ⟨own, ranged, -⟩ := findOwner_eq_ok_iff.1 found
  exact (contains_rangeAt_iff (lt_numRanks_of_range ranged)).2 found

/-- The owner of an id, if it has one. -/
def ownerOf (e : Extents) (id : UInt64) : Nat := e.ends.findIdx (id < ·)

theorem findOwner_eq {id : UInt64} (known : id < e.globalSize) :
    e.findOwner id = .ok (e.ownerOf id) := if_neg (UInt64.not_le.2 known)

theorem ownerOf_lt {id : UInt64} (known : id < e.globalSize) : e.ownerOf id < e.numRanks := by
  obtain ⟨own, ranged, -⟩ := findOwner_eq_ok_iff.1 (findOwner_eq known)
  exact lt_numRanks_of_range ranged

theorem lt_globalSize_of_findOwner {id : UInt64} (found : e.findOwner id = .ok rank) :
    id < e.globalSize := by
  unfold findOwner at found
  split at found
  · cases found
  · rename_i within
    exact UInt64.not_le.1 within

end Extents

/-! ## Sorting by owner -/

section sharing

variable {α : Type} (e : Extents) (idOf : α → UInt64) (items : List α)

/-- The items that are for one owner, in their order. -/
def share (owner : Nat) : List α := items.filter fun item => e.isOwnedBy (idOf item) owner

/-- The shares of all owners that have one. -/
def shares : RankMap (List α) :=
  (RankMap.groupBy Prod.fst (items.map fun item => (e.ownerOf (idOf item), item))).map
    fun _ => List.map Prod.snd

variable {e idOf items}

theorem filter_share {id : UInt64} {owner : Nat} (owned : e.isOwnedBy id owner)
    (items : List α) :
    (share e idOf items owner).filter (idOf · = id) = items.filter (idOf · = id) := by
  rw [share, List.filter_filter]
  refine List.filter_congr fun item _ => ?_
  by_cases same : idOf item = id
  · rw [same, owned, Bool.and_true]
  · simp [same]

theorem mem_share {owner : Nat} {item : α} :
    item ∈ share e idOf items owner ↔ item ∈ items ∧ e.findOwner (idOf item) = .ok owner := by
  rw [share, List.mem_filter, Extents.isOwnedBy_iff]

theorem listOf_map {β : Type} {f : List α → List β} (none_left : f [] = [])
    (m : RankMap (List α)) (rank : Nat) :
    RankMap.listOf (m.map fun _ => f) rank = f (m.listOf rank) := by
  rw [RankMap.listOf, RankMap.listOf, Std.ExtTreeMap.getElem?_map]
  cases m[rank]? with
  | none => exact none_left.symm
  | some list => rfl

theorem listOf_shares (known : ∀ item ∈ items, idOf item < e.globalSize) (owner : Nat) :
    (shares e idOf items).listOf owner = share e idOf items owner := by
  rw [shares, listOf_map rfl, RankMap.listOf_groupBy, List.filter_map, List.map_map, share]
  show List.map id _ = _
  rw [List.map_id]
  refine List.filter_congr fun item member => ?_
  rw [Bool.eq_iff_iff, Extents.isOwnedBy_iff, Extents.findOwner_eq (known item member)]
  simp

/-- Owners without a share have no list. -/
theorem getElem?_shares (known : ∀ item ∈ items, idOf item < e.globalSize) {owner : Nat}
    {list : List α} :
    (shares e idOf items)[owner]? = some list ↔ list ≠ [] ∧ list = share e idOf items owner := by
  have listed := listOf_shares known owner
  rw [RankMap.listOf] at listed
  constructor
  · intro found
    rw [found, Option.getD_some] at listed
    refine ⟨?_, listed⟩
    rintro rfl
    rw [shares, Std.ExtTreeMap.getElem?_map, RankMap.getElem?_groupBy] at found
    split at found
    · rename_i some'
      obtain ⟨entry, present, owned⟩ := List.any_eq_true.1 some'
      have empty := List.map_eq_nil_iff.1 (Option.some.inj found)
      exact List.not_mem_nil (empty ▸ List.mem_filter.2 ⟨present, owned⟩)
    · cases found
  · rintro ⟨populated, rfl⟩
    cases found : (shares e idOf items)[owner]? with
    | none => exact absurd (by rw [← listed, found, Option.getD_none]) populated
    | some list => rw [← listed, found, Option.getD_some]

theorem lt_numRanks_of_shares (known : ∀ item ∈ items, idOf item < e.globalSize)
    {owner : Nat} (member : owner ∈ (shares e idOf items).keys) : owner < e.numRanks := by
  rw [Std.ExtTreeMap.mem_keys, shares, Std.ExtTreeMap.mem_map,
    Std.ExtTreeMap.mem_iff_isSome_getElem?, RankMap.getElem?_groupBy] at member
  split at member
  · rename_i some'
    obtain ⟨_, present, owned⟩ := List.any_eq_true.1 some'
    obtain ⟨item, queued, rfl⟩ := List.mem_map.1 present
    have same : e.ownerOf (idOf item) = owner := of_decide_eq_true owned
    exact same ▸ Extents.ownerOf_lt (known item queued)
  · cases member

end sharing

end HaloVector
