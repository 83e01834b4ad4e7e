import Std.Data.ExtTreeMap
import HaloVector.Layout

/-!
# Lists by rank

A rank often has something for a few ranks only. A `RankMap` holds a value for each of
some ranks, and is determined by them.

* `RankMap.groupBy` sorts values into lists by rank and keeps their order
  (`getElem?_groupBy`).
* `RankMap.concat` packs the lists of all ranks into one buffer, and
  `RankMap.counts` says how many elements belong to each.
* `RankMap.ofParts` takes a packed buffer apart again (`toList_ofParts`).
-/

namespace HaloVector

/-- A value for each of some ranks. -/
abbrev RankMap (α : Type) : Type := Std.ExtTreeMap Nat α

namespace RankMap

variable {α : Type}

/-- The list of a rank; a rank without one has the empty list. -/
def listOf (m : RankMap (List α)) (rank : Nat) : List α := m[rank]?.getD []

/-- The length of the list of every rank below `size`. -/
def counts (m : RankMap (List α)) (size : Nat) : List Nat :=
  (List.range size).map fun rank => (m.listOf rank).length

/-- The lists of all ranks below `size`, one after the other. -/
def concat (m : RankMap (List α)) (size : Nat) : List α := (List.range size).flatMap m.listOf

/-! ## Grouping -/

/-- Adds a value at the end of the list of its rank. -/
def addTo (m : RankMap (List α)) (rank : Nat) (value : α) : RankMap (List α) :=
  m.insert rank (m.listOf rank ++ [value])

/-- Sorts values into lists by rank, each list in the order of the values. -/
def groupBy (rankOf : α → Nat) (values : List α) : RankMap (List α) :=
  values.foldl (fun m value => m.addTo (rankOf value) value) ∅

@[simp] theorem listOf_empty (rank : Nat) : listOf (∅ : RankMap (List α)) rank = [] := by
  simp [listOf]

theorem getElem?_addTo (m : RankMap (List α)) (rank other : Nat) (value : α) :
    (m.addTo rank value)[other]? =
      if rank = other then some (m.listOf rank ++ [value]) else m[other]? := by
  simp [addTo, Std.ExtTreeMap.getElem?_insert]

theorem getElem?_foldl_addTo (rankOf : α → Nat) (values : List α) (m : RankMap (List α))
    (rank : Nat) :
    (values.foldl (fun m value => m.addTo (rankOf value) value) m)[rank]? =
      if values.any (rankOf · = rank)
      then some (m.listOf rank ++ values.filter (rankOf · = rank)) else m[rank]? := by
  induction values generalizing m with
  | nil => simp
  | cons value rest ih =>
    rw [List.foldl_cons, ih]
    by_cases here : rankOf value = rank
    · by_cases later : rest.any (rankOf · = rank)
      · simp [later, here, listOf, getElem?_addTo]
      · have none_later : rest.filter (rankOf · = rank) = [] := by
          simpa using later
        simp [later, here, getElem?_addTo, none_later]
    · simp [here, listOf, getElem?_addTo]

/-- The list of a rank holds the values of that rank, in order; a rank without values
has no list. -/
theorem getElem?_groupBy (rankOf : α → Nat) (values : List α) (rank : Nat) :
    (groupBy rankOf values)[rank]? =
      if values.any (rankOf · = rank) then some (values.filter (rankOf · = rank))
      else none := by
  simp [groupBy, getElem?_foldl_addTo]

theorem listOf_groupBy (rankOf : α → Nat) (values : List α) (rank : Nat) :
    (groupBy rankOf values).listOf rank = values.filter (rankOf · = rank) := by
  rw [listOf, getElem?_groupBy]
  split
  · rfl
  · rename_i absent
    exact (by simpa using absent : values.filter (rankOf · = rank) = []).symm

/-! ## Packing -/

@[simp] theorem length_counts (m : RankMap (List α)) (size : Nat) :
    (m.counts size).length = size := by
  simp [counts]

theorem getD_counts (m : RankMap (List α)) {size rank : Nat} (inside : rank < size) :
    (m.counts size).getD rank 0 = (m.listOf rank).length := by
  simp [counts, List.getD_eq_getElem?_getD, inside]

theorem length_flatMap_listOf (m : RankMap (List α)) (ranks : List Nat) :
    (ranks.flatMap m.listOf).length =
      totalCount (ranks.map fun rank => (m.listOf rank).length) := by
  induction ranks with
  | nil => rfl
  | cons rank rest ih => simp [totalCount, ← ih]

theorem length_concat (m : RankMap (List α)) (size : Nat) :
    (m.concat size).length = totalCount (m.counts size) :=
  length_flatMap_listOf m (List.range size)

/-- The parts of a buffer that are not empty. -/
def ofParts (layout : Layout) (buffer : List α) (size : Nat) : RankMap (List α) :=
  .ofList ((layout.nonempty (List.range size)).map fun rank => (rank, layout.part buffer rank))

/-- A map lists its entries by increasing rank. -/
theorem toList_eq {m : RankMap α} {entries : List (Nat × α)}
    (ascending : entries.Pairwise fun a b => a.1 < b.1)
    (same : ∀ rank value, m[rank]? = some value ↔ (rank, value) ∈ entries) :
    m.toList = entries := by
  have listed : m.toList.Pairwise fun a b => a.1 < b.1 :=
    Std.ExtTreeMap.ordered_keys_toList.imp fun {a b} below => Nat.compare_eq_lt.1 below
  refine List.Perm.eq_of_pairwise (fun a b _ _ ab ba => absurd ab (Nat.lt_asymm ba))
    listed ascending ?_
  refine (List.perm_ext_iff_of_nodup ?_ ?_).2 fun ⟨rank, value⟩ =>
    Std.ExtTreeMap.mem_toList_iff_getElem?_eq_some.trans (same rank value)
  · exact listed.imp fun {a b} below same => absurd (same ▸ below) (Nat.lt_irrefl _)
  · exact ascending.imp fun {a b} below same => absurd (same ▸ below) (Nat.lt_irrefl _)

/-- A map that is made from entries in increasing order lists them in that order. -/
theorem toList_ofList {entries : List (Nat × α)}
    (ascending : entries.Pairwise fun a b => a.1 < b.1) :
    (Std.ExtTreeMap.ofList entries : RankMap α).toList = entries := by
  have distinct : entries.Pairwise fun a b => ¬compare a.1 b.1 = .eq :=
    ascending.imp fun {a b} below same =>
      absurd (Nat.compare_eq_eq.1 same) (Nat.ne_of_lt below)
  refine toList_eq ascending fun rank value => ⟨fun found => ?_, fun member =>
    Std.ExtTreeMap.getElem?_ofList_of_mem (Nat.compare_eq_eq.2 rfl) distinct member⟩
  by_cases known : (entries.map Prod.fst).contains rank
  · obtain ⟨⟨_, other⟩, member, rfl⟩ :=
      List.mem_map.1 (List.contains_iff_mem.1 known)
    rw [Std.ExtTreeMap.getElem?_ofList_of_mem (Nat.compare_eq_eq.2 rfl) distinct member]
      at found
    cases found
    exact member
  · rw [Std.ExtTreeMap.getElem?_ofList_of_contains_eq_false (by simpa using known)] at found
    cases found

/-- Taking a buffer apart gives the parts that are not empty, by increasing rank. -/
theorem toList_ofParts (layout : Layout) (buffer : List α) (size : Nat) :
    (ofParts layout buffer size).toList =
      (layout.nonempty (List.range size)).map fun rank => (rank, layout.part buffer rank) := by
  apply toList_ofList
  rw [List.pairwise_map]
  exact List.pairwise_lt_range.filter _

theorem getElem?_ofParts (layout : Layout) (buffer : List α) (size rank : Nat) :
    (ofParts layout buffer size)[rank]? =
      if rank < size ∧ 0 < layout.count rank then some (layout.part buffer rank) else none := by
  ext list
  rw [← Std.ExtTreeMap.mem_toList_iff_getElem?_eq_some, toList_ofParts, List.mem_map,
    Option.ite_none_right_eq_some]
  constructor
  · rintro ⟨_, member, same⟩
    cases same
    obtain ⟨inside, some'⟩ := List.mem_filter.1 member
    exact ⟨⟨List.mem_range.1 inside, of_decide_eq_true some'⟩, rfl⟩
  · rintro ⟨⟨inside, some'⟩, same⟩
    cases same
    exact ⟨rank, List.mem_filter.2 ⟨List.mem_range.2 inside, decide_eq_true some'⟩, rfl⟩

end RankMap
end HaloVector
