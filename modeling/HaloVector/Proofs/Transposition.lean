import HaloVector.Proofs.Delivery

/-!
# Transposition

Lists that are given by their target come back by their source, as a matrix of lists is
transposed. Nothing is lost, doubled or reordered, and an empty list is as good as none.

* `Group.getElem?_mailFor`: what a rank receives from a source is what that source has for it.
* `Group.exchangeByRank_transposes`: all ranks of a group receive so, under every schedule.
-/

namespace HaloVector

namespace RankMap

variable {α : Type}

theorem length_listOf_pos_iff {m : RankMap (List α)} {rank : Nat} :
    0 < (m.listOf rank).length ↔ ∃ list, m[rank]? = some list ∧ list ≠ [] := by
  unfold listOf
  cases m[rank]? <;> simp [List.length_pos_iff]

/-- One list is no longer than all that its rank sends. -/
theorem length_listOf_le (m : RankMap (List α)) {size target : Nat} (inside : target < size) :
    (m.listOf target).length ≤ totalCount (m.counts size) := by
  rw [← length_concat]
  exact (List.sublist_flatten_of_mem (List.mem_map_of_mem (List.mem_range.2 inside))).length_le

end RankMap

/-- Lists by target that the ranks of a group can exchange. Every target exists, and the bytes
that a rank sends and receives in all are counted by a machine word. -/
structure Exchangeable {α : Type} [Cell α] (size : Nat) (lists : Nat → RankMap (List α)) :
    Prop where
  addressed : ∀ rank < size, ∀ target ∈ (lists rank).keys, target < size
  sends : ∀ rank < size,
    totalCount ((lists rank).counts size) * Cell.width α ≤ lastIndex
  receives : ∀ rank < size,
    totalCount ((List.range size).map fun source => ((lists source).listOf rank).length) *
      Cell.width α ≤ lastIndex

namespace Group

variable {α : Type} {size : Nat} {lists : Nat → RankMap (List α)}

/-- A rank has a list from exactly the ranks whose list for it is not empty. -/
theorem getElem?_mailFor {rank source : Nat} {list : List α} :
    (mailFor size lists rank)[source]? = some list ↔
      source < size ∧ (lists source)[rank]? = some list ∧ list ≠ [] := by
  rw [← Std.ExtTreeMap.mem_toList_iff_getElem?_eq_some, toList_mailFor]
  constructor
  · intro member
    obtain ⟨_, kept, same⟩ := List.mem_map.1 member
    obtain ⟨inside, some'⟩ := List.mem_filter.1 kept
    obtain ⟨sent, found, filled⟩ := RankMap.length_listOf_pos_iff.1 (of_decide_eq_true some')
    cases same
    have whole : (lists source).listOf rank = sent := by
      rw [RankMap.listOf, found, Option.getD_some]
    exact ⟨List.mem_range.1 inside, whole ▸ found, whole ▸ filled⟩
  · rintro ⟨inside, found, filled⟩
    have some' := RankMap.length_listOf_pos_iff.2 ⟨list, found, filled⟩
    refine List.mem_map.2 ⟨source, List.mem_filter.2 ⟨List.mem_range.2 inside, ?_⟩, ?_⟩
    · exact decide_eq_true some'
    · rw [RankMap.listOf, found, Option.getD_some]

theorem keys_mailFor (size : Nat) (lists : Nat → RankMap (List α)) (rank : Nat) :
    (mailFor size lists rank).keys =
      (List.range size).filter fun source => (lists source)[rank]?.any (!·.isEmpty) := by
  rw [← Std.ExtTreeMap.map_fst_toList_eq_keys, toList_mailFor, List.map_map]
  refine (List.map_id _).trans (List.filter_congr fun source _ => ?_)
  rw [Bool.eq_iff_iff, decide_eq_true_iff, RankMap.length_listOf_pos_iff, Option.any_eq_true]
  simp

/-- Every rank receives a map of exactly the ranks that have something for it, itself
included, by increasing rank, and finds there the list of each as it was sent. -/
theorem exchangeByRank_transposes [Cell α] [LawfulCell α] (tags : ExchangeTags)
    (exchangeable : Exchangeable size lists) :
    ∃ received : Nat → RankMap (List α),
      Settles size (fun rank => (exchangeByRank (.member rank size) (lists rank) tags).run)
        (fun rank => .ok (received rank)) ∧
      ∀ rank < size,
        (received rank).keys =
          (List.range size).filter (fun source => (lists source)[rank]?.any (!·.isEmpty)) ∧
        ∀ source ∈ (received rank).keys, (received rank)[source]? = (lists source)[rank]? := by
  have small : ∀ rank < size, ∀ target < size,
      ((lists rank).listOf target).length ≤ lastIndex := by
    intro rank inside target within
    calc ((lists rank).listOf target).length
        ≤ totalCount ((lists rank).counts size) := RankMap.length_listOf_le _ within
      _ ≤ totalCount ((lists rank).counts size) * Cell.width α :=
          Nat.le_mul_of_pos_right _ LawfulCell.width_pos
      _ ≤ lastIndex := exchangeable.sends rank inside
  refine ⟨mailFor size lists, settles_exchangeByRank lists tags exchangeable.addressed small,
    fun rank _ => ⟨keys_mailFor size lists rank, fun source member => ?_⟩⟩
  rw [Std.ExtTreeMap.mem_keys, Std.ExtTreeMap.mem_iff_isSome_getElem?] at member
  obtain ⟨list, found⟩ := Option.isSome_iff_exists.1 member
  rw [found, (getElem?_mailFor.1 found).2.1]

/-- Three ranks of which the first sends to itself, the second has an empty list for the last,
and the last sends nothing. -/
def sparseLists : Nat → RankMap (List UInt16)
  | 0 => .ofList ([(0, [7]), (2, [1, 2])] : List (Nat × List UInt16))
  | 1 => .ofList ([(0, [3, 3]), (2, [])] : List (Nat × List UInt16))
  | _ => ∅

theorem exchangeByRank_transposes_sparse : ∃ received : Nat → RankMap (List UInt16),
    Settles 3 (fun rank => (exchangeByRank (.member rank 3) (sparseLists rank) default).run)
      (fun rank => .ok (received rank)) ∧
    (received 0).keys = [0, 1] ∧ (received 0)[1]? = some [3, 3] ∧
    (received 1).keys = [] ∧
    (received 2).keys = [0] ∧ (received 2)[0]? = some [1, 2] := by
  have exchangeable : Exchangeable 3 sparseLists := by
    refine ⟨?_, ?_, ?_⟩ <;> decide +kernel
  obtain ⟨received, settled, facts⟩ := exchangeByRank_transposes default exchangeable
  have first : (received 0).keys = [0, 1] := (facts 0 (by decide)).1.trans (by decide +kernel)
  have last : (received 2).keys = [0] := (facts 2 (by decide)).1.trans (by decide +kernel)
  refine ⟨received, settled, first, ?_, (facts 1 (by decide)).1.trans (by decide +kernel),
    last, ?_⟩
  · exact ((facts 0 (by decide)).2 1 (by simp [first])).trans (by decide +kernel)
  · exact ((facts 2 (by decide)).2 0 (by simp [last])).trans (by decide +kernel)

end Group
end HaloVector
