import HaloVector.Proofs.GroupAssembly
import HaloVector.Proofs.VectorCalls

/-!
# The maximum norm

A rank looks for the greatest absolute value among the entries that it owns, from zero on. The
group takes the greatest of what its ranks have found, from negative infinity on. Numbers are
ordered, and absolute values that are equal in this order are the same, so what comes out depends
on the entries and not on the ranks that own them.

* `Scalar.IsPeak` is what a maximum norm should be, and `Scalar.IsPeak.unique` says that this is
  one scalar at most.
* `Scalar.maximum_mem` and `Scalar.rank_le_maximum`: a maximum is one of the numbers that it is of,
  and none of them is greater.
* `Scalar.isPeak_flatMap`: the greatest of the peaks of some lists is the peak of all of them.
* `VectorPart.max_norm_ignores_ranks`: the norm of a list of numbers, however it is spread over
  however many ranks.
-/

namespace HaloVector

namespace Scalar

/-- The greatest absolute value of some numbers, which is `0.0` if there are none. -/
structure IsPeak (values : List Scalar) (top : Scalar) : Prop where
  empty : values = [] → top = zero
  attained : values ≠ [] → ∃ x ∈ values, top = x.abs
  above : ∀ x ∈ values, x.abs.rank ≤ top.rank

variable {x y start top other : Scalar} {xs values : List Scalar}

/-! ## Absolute values -/

theorem rank_abs_nonneg (x : Scalar) : 0 ≤ x.abs.rank := by
  rw [rank_abs]
  exact Int.natCast_nonneg _

theorem abs_eq_of_rank (same : x.abs.rank = y.abs.rank) : x.abs = y.abs := by
  rw [rank_abs, rank_abs] at same
  rw [abs, abs, Int.ofNat.inj same]

theorem IsPeak.unique (peak : IsPeak values top) (again : IsPeak values other) : top = other := by
  by_cases none : values = []
  · rw [peak.empty none, again.empty none]
  · obtain ⟨x, left, rfl⟩ := peak.attained none
    obtain ⟨y, right, rfl⟩ := again.attained none
    exact abs_eq_of_rank (Int.le_antisymm (again.above x left) (peak.above y right))

theorem IsPeak.mem (peak : IsPeak values top) : top ∈ zero :: values.map abs := by
  by_cases none : values = []
  · rw [peak.empty none]
    exact List.mem_cons_self
  · obtain ⟨x, member, rfl⟩ := peak.attained none
    exact List.mem_cons_of_mem _ (List.mem_map_of_mem member)

theorem IsPeak.rank_nonneg (peak : IsPeak values top) : 0 ≤ top.rank := by
  obtain rfl | later := List.mem_cons.1 peak.mem
  · exact Int.le_refl 0
  · obtain ⟨x, -, rfl⟩ := List.mem_map.1 later
    exact rank_abs_nonneg x

/-- A search that starts at zero does not find a zero that is not there: it is found only if all
numbers are zero. -/
theorem isPeak_of_mem (found : top ∈ zero :: values.map abs)
    (above : ∀ x ∈ values, x.abs.rank ≤ top.rank) : IsPeak values top where
  empty none := by
    rw [none] at found
    exact List.mem_singleton.1 found
  attained some := by
    obtain rfl | later := List.mem_cons.1 found
    · obtain ⟨x, member⟩ := List.exists_mem_of_ne_nil values some
      have same : zero.abs.rank = x.abs.rank :=
        Int.le_antisymm (rank_abs_nonneg x) (above x member)
      exact ⟨x, member, abs_eq_of_rank same⟩
    · obtain ⟨x, member, same⟩ := List.mem_map.1 later
      exact ⟨x, member, same.symm⟩
  above := above

/-! ## Maxima -/

theorem max_eq_or (x y : Scalar) : x.max y = x ∨ x.max y = y := by
  unfold max
  split
  · exact .inr rfl
  · split
    · exact .inl rfl
    · split
      · exact .inr rfl
      · exact .inl rfl

theorem rank_le_max (left : x.isNaN = false) (right : y.isNaN = false) :
    x.rank ≤ (x.max y).rank ∧ y.rank ≤ (x.max y).rank := by
  rw [max, left, right, if_neg Bool.false_ne_true, if_neg Bool.false_ne_true]
  split
  · exact ⟨Int.le_of_lt ‹_›, Int.le_refl _⟩
  · exact ⟨Int.le_refl _, Int.not_lt.1 ‹_›⟩

theorem maximum_mem (start : Scalar) (xs : List Scalar) : maximum start xs ∈ start :: xs := by
  induction xs generalizing start with
  | nil => exact List.mem_singleton_self _
  | cons x xs ih =>
    rw [List.mem_cons, List.mem_cons]
    obtain same | later := List.mem_cons.1 (ih (start.max x))
    · exact (max_eq_or start x).imp same.trans fun second => .inl (same.trans second)
    · exact .inr (.inr later)

theorem rank_le_maximum (numbers : ∀ x ∈ start :: xs, x.isNaN = false) :
    ∀ x ∈ start :: xs, x.rank ≤ (maximum start xs).rank := by
  induction xs generalizing start with
  | nil => exact List.forall_mem_singleton.2 (Int.le_refl _)
  | cons y ys ih =>
    obtain ⟨first, second, rest⟩ : start.isNaN = false ∧ y.isNaN = false ∧
        ∀ x ∈ ys, x.isNaN = false := by simpa using numbers
    obtain ⟨left, right⟩ := rank_le_max first second
    have number : (start.max y).isNaN = false := by
      obtain same | same := max_eq_or start y
      · rwa [same]
      · rwa [same]
    obtain ⟨front, back⟩ := List.forall_mem_cons.1
      (ih (List.forall_mem_cons.2 ⟨number, rest⟩))
    rw [List.forall_mem_cons, List.forall_mem_cons]
    exact ⟨Int.le_trans left front, Int.le_trans right front, back⟩

theorem isNaN_of_mem_abs (numbers : ∀ x ∈ values, x.isNaN = false) :
    ∀ x ∈ zero :: values.map abs, x.isNaN = false :=
  List.forall_mem_cons.2
    ⟨rfl, List.forall_mem_map.2 fun x member => x.isNaN_abs.trans (numbers x member)⟩

theorem isPeak_maximum (numbers : ∀ x ∈ values, x.isNaN = false) :
    IsPeak values (maximum zero (values.map abs)) :=
  isPeak_of_mem (maximum_mem _ _) fun _ member =>
    rank_le_maximum (isNaN_of_mem_abs numbers) _
      (List.mem_cons_of_mem _ (List.mem_map_of_mem member))

theorem IsPeak.isNaN (peak : IsPeak values top) (numbers : ∀ x ∈ values, x.isNaN = false) :
    top.isNaN = false :=
  isNaN_of_mem_abs numbers top peak.mem

/-- The greatest of the peaks of some lists is the peak of all these lists. Negative infinity is
less than any peak, and there is a list, so the greatest was found in one of them. -/
theorem isPeak_flatMap {ι : Type} {indices : List ι} {lists : ι → List Scalar} {tops : ι → Scalar}
    (populated : indices ≠ []) (numbers : ∀ i ∈ indices, ∀ x ∈ lists i, x.isNaN = false)
    (peaks : ∀ i ∈ indices, IsPeak (lists i) (tops i)) :
    IsPeak (indices.flatMap lists) (maximum negInfinity (indices.map tops)) := by
  have above (i : ι) (inside : i ∈ indices) :
      (tops i).rank ≤ (maximum negInfinity (indices.map tops)).rank := by
    refine rank_le_maximum (List.forall_mem_cons.2 ⟨rfl, ?_⟩) _
      (List.mem_cons_of_mem _ (List.mem_map_of_mem inside))
    exact List.forall_mem_map.2 fun j member => (peaks j member).isNaN (numbers j member)
  refine isPeak_of_mem ?_ fun x member => ?_
  · obtain least | later := List.mem_cons.1 (maximum_mem negInfinity (indices.map tops))
    · obtain ⟨i, inside⟩ := List.exists_mem_of_ne_nil indices populated
      have somewhere := Int.le_trans (peaks i inside).rank_nonneg (above i inside)
      rw [least] at somewhere
      exact absurd somewhere (by decide)
    · obtain ⟨i, inside, same⟩ := List.mem_map.1 later
      have there := (peaks i inside).mem
      rw [same] at there
      have among : lists i ⊆ indices.flatMap lists :=
        fun x member => List.mem_flatMap.2 ⟨i, inside, member⟩
      exact List.cons_subset_cons _ (List.map_subset _ among) there
  · obtain ⟨i, inside, member⟩ := List.mem_flatMap.1 member
    exact Int.le_trans ((peaks i inside).above x member) (above i inside)

end Scalar

/-! ## The group -/

namespace VectorPart

/-- A group has a vector whose entries are `values`, those of each rank after those of the ranks
before it. Whatever ghosts there are may be anything. -/
structure Spreads (values : List Scalar) (size : Nat) (parts : Nat → VectorPart) : Prop where
  populated : 0 < size
  topology : ∀ rank < size, (parts rank).shard.topology = ⟨rank, size⟩
  joined : (List.range size).flatMap (fun rank => (parts rank).shard.values) = values

theorem Spreads.isPeak {values : List Scalar} {size : Nat} {parts : Nat → VectorPart}
    (spread : Spreads values size parts) (numbers : ∀ x ∈ values, x.isNaN = false) :
    Scalar.IsPeak values (Reduction.max.fold
      ((List.range size).map fun rank => (parts rank).shard.maxAbs)) := by
  obtain ⟨populated, -, rfl⟩ := spread
  have owned (rank : Nat) (inside : rank ∈ List.range size) :
      ∀ x ∈ (parts rank).shard.values, x.isNaN = false :=
    fun x member => numbers x (List.mem_flatMap.2 ⟨rank, inside, member⟩)
  refine Scalar.isPeak_flatMap ?_ owned fun rank inside => Scalar.isPeak_maximum (owned rank inside)
  exact List.ne_nil_of_mem (List.mem_range.2 populated)

/-- The maximum norm of numbers is the same on every rank of every group that they are spread
over: their greatest absolute value, or `0.0` if there are none. -/
theorem max_norm_ignores_ranks {values : List Scalar}
    (numbers : ∀ x ∈ values, x.isNaN = false) :
    ∃ top, Scalar.IsPeak values top ∧
      ∀ (size : Nat) (parts : Nat → VectorPart), Spreads values size parts →
        Group.Settles size
          (fun rank => ((parts rank).shard.norm (.member rank size) .lInf).run)
          fun _ => .ok top := by
  have peak := Scalar.isPeak_maximum numbers
  refine ⟨_, peak, fun size parts spread => ?_⟩
  rw [peak.unique (spread.isPeak numbers)]
  refine Group.settles_norm (fun _ => .lInf) fun rank inside => ?_
  rw [spread.topology rank inside]
  exact Communicator.check_member inside

/-- The parts of `1.0`, `-2.0` and `-0.0` on three ranks. The second rank owns nothing, and keeps
something as a ghost that is greater than all of them. -/
def signedParts (rank : Nat) : VectorPart :=
  let extents : Extents := ⟨[1, 1, 3], by decide, by decide⟩
  let owned (values : List Scalar) : Shard := ⟨⟨rank, 3⟩, extents, values, .empty, default⟩
  match rank with
  | 0 => plain (owned [.one])
  | 1 =>
    ghosted {
      shard := owned []
      halo := ⟨⟨1, 3⟩, extents, [2], ∅, [0], .empty, default⟩
      ghosts := [.infinity] }
  | _ => plain (owned [⟨0xc000000000000000⟩, .negZero])

/-- The same entries on one rank. -/
def signedWhole (rank : Nat) : VectorPart :=
  plain ⟨⟨rank, 1⟩, ⟨[3], by decide, by decide⟩, [.one, ⟨0xc000000000000000⟩, .negZero], .empty,
    default⟩

/-- A vector of two ranks with no entries. -/
def emptyParts (rank : Nat) : VectorPart :=
  plain (.zeroed ⟨rank, 2⟩ ⟨[0, 0], by decide, by decide⟩ default)

theorem max_norm_ignores_ranks_signed :
    let norm (parts : Nat → VectorPart) (size rank : Nat) :=
      ((parts rank).shard.norm (.member rank size) .lInf).run
    (∀ x ∈ [.one, ⟨0xc000000000000000⟩, .negZero], Scalar.isNaN x = false) ∧
      Group.Settles 3 (norm signedParts 3) (fun _ => .ok ⟨0x4000000000000000⟩) ∧
      Group.Settles 1 (norm signedWhole 1) (fun _ => .ok ⟨0x4000000000000000⟩) ∧
      Group.Settles 2 (norm emptyParts 2) fun _ => .ok .zero := by
  have numbers : ∀ x ∈ [.one, ⟨0xc000000000000000⟩, .negZero], Scalar.isNaN x = false := by decide
  obtain ⟨top, peak, settled⟩ := max_norm_ignores_ranks numbers
  obtain ⟨least, none, still⟩ := @max_norm_ignores_ranks [] nofun
  have two : top = ⟨0x4000000000000000⟩ :=
    peak.unique ⟨nofun, fun _ => ⟨⟨0xc000000000000000⟩, by decide, rfl⟩, by decide⟩
  cases two
  cases none.empty rfl
  exact ⟨numbers, settled 3 signedParts ⟨by decide, by decide, rfl⟩,
    settled 1 signedWhole ⟨by decide, by decide, rfl⟩,
    still 2 emptyParts ⟨by decide, by decide, rfl⟩⟩

end VectorPart

end HaloVector
