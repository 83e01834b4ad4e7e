import HaloVector.Proofs.GhostCalls
import HaloVector.Proofs.Partition
import HaloVector.Proofs.PrefixSums

/-!
# Matching layouts

Every rank of a group combines its part of one vector with its part of another. A rank compares
sizes only, so it may take shifted ranges for matching ones. Not all ranks can be wrong at once:
where every range has the size of its counterpart, it starts where its counterpart does.

* `Pairing` are the operations of a vector with another one, and `Pairing.entry` is what each of
  them makes of an entry.
* `Extents.eq_of_localSize`: extents are the same if every rank owns equally many ids.
* `Pairing.run_of_matching` and `Pairing.run_of_differing` are the two ways that an operation can
  go on one rank.
* `VectorPart.pairings_act_on_ids`: if all ranks succeed, then every id has been combined with
  itself.
-/

namespace HaloVector

/-! ## Extents of equal ranges -/

/-- Each range starts where those before it end, so sizes are all there is to extents. -/
theorem Extents.eq_of_localSize {one other : Extents} {size : Nat} (ranks : one.numRanks = size)
    (again : other.numRanks = size)
    (same : ∀ rank < size, one.localSize rank = other.localSize rank) : one = other := by
  have sizes : one.sizes = other.sizes := by
    refine List.ext_getElem ?_ fun rank inOne inOther => ?_
    · rw [length_sizes, length_sizes, ranks, again]
    · have inside : rank < size := by rwa [length_sizes, ranks] at inOne
      have counted := same rank inside
      rw [localSize_eq_of_sizes (List.getElem?_eq_getElem inOne),
        localSize_eq_of_sizes (List.getElem?_eq_getElem inOther)] at counted
      exact UInt64.toNat_inj.1 (Except.ok.inj counted)
  exact Except.ok.inj ((ofSizes_eq_ok_iff.2 rfl).symm.trans (ofSizes_eq_ok_iff.2 sizes.symm))

/-! ## Operations of two vectors -/

/-- An operation of a vector with another one. -/
inductive Pairing
  | copy
  | add
  | addMultiple (a : Scalar)
  | scaleAdd (a : Scalar)

namespace Pairing

/-- The method of the owned part. -/
def call (other : Shard) : Pairing → ShardCall
  | copy => .copyValues other
  | add => .add other
  | addMultiple a => .addMultiple a other
  | scaleAdd a => .scaleAdd a other

/-- What becomes of an entry `x` with the entry `y` of the other vector. -/
def entry (x y : Scalar) : Pairing → Scalar
  | copy => y
  | add => x.increase (y * .one)
  | addMultiple a => x.increase (y * a)
  | scaleAdd a => a * x + y

/-- What one rank does with its parts of the two vectors. The second is only read. -/
def run (x y : VectorPart) (op : Pairing) : Attempt VectorPart :=
  DistributedVector.withAttempt x ((op.call y.shard).run x.shard)

/-- The numbers of entries of two parts, on their rank and in all. -/
def mismatch (x y : VectorPart) : VectorError :=
  .incompatibleLayout x.shard.localSize y.shard.localSize x.shard.globalSize y.shard.globalSize

variable {x y : VectorPart} (op : Pairing)

/-- All operations are made of their `entry` in the same way. -/
theorem run_eq_combine :
    op.run x y = DistributedVector.withAttempt x
      (.orElse x.shard (x.shard.combine y.shard fun old other => op.entry old other)) := by
  cases op <;> rfl

theorem run_of_matching (owned : x.shard.localSize = y.shard.localSize)
    (whole : x.shard.globalSize = y.shard.globalSize) :
    op.run x y = ⟨x.withShard { x.shard with
      values := List.zipWith (fun old other => op.entry old other) x.shard.values y.shard.values },
      .ok ()⟩ := by
  have passed : x.shard.checkLayout y.shard = .ok () := if_pos ⟨owned, whole⟩
  rw [run_eq_combine, Shard.combine, passed]
  rfl

theorem run_of_differing
    (differs : ¬(x.shard.localSize = y.shard.localSize ∧
      x.shard.globalSize = y.shard.globalSize)) :
    op.run x y = ⟨x, .error (mismatch x y)⟩ := by
  have refused : x.shard.checkLayout y.shard = .error (mismatch x y) := if_neg differs
  rw [run_eq_combine, Shard.combine, refused]
  exact congrArg (Attempt.mk · _) x.withShard_self

end Pairing

/-! ## The group -/

namespace VectorPart

/-- The part of a vector over given extents that is on a rank of a group. Whatever ghosts it has
may come from anywhere. -/
structure Over (size rank : Nat) (e : Extents) (part : VectorPart) : Prop where
  topology : part.shard.topology = ⟨rank, size⟩
  extents : part.shard.extents = e
  wellFormed : part.shard.WellFormed

/-- What an operation may have made of a part: nothing but owned entries are written, and if it
has failed then not even these. -/
structure Contained (x y : VectorPart) (attempt : Attempt VectorPart) : Prop where
  refused : ∀ error, attempt.outcome = .error error →
    error = Pairing.mismatch x y ∧ attempt.state = x
  ghosts : attempt.state.ghosts = x.ghosts
  owned : ∃ values, values.length = x.shard.values.length ∧
    attempt.state = x.withShard { x.shard with values }

section group

variable {size rank : Nat} {ex ey e : Extents} {part : VectorPart}

theorem Over.numRanks (laid : part.Over size rank e) : e.numRanks = size := by
  have ranks := laid.wellFormed.1
  rwa [laid.extents, laid.topology] at ranks

theorem Over.localSize (laid : part.Over size rank e) :
    e.localSize rank = .ok part.shard.localSize := by
  have owned := laid.wellFormed.2
  rwa [laid.extents, laid.topology] at owned

theorem Over.globalSize (laid : part.Over size rank e) : part.shard.globalSize = e.globalSize :=
  congrArg Extents.globalSize laid.extents

/-- The owner of an id has an entry for it. -/
theorem Over.exists_entry (laid : part.Over size rank e) {id : UInt64} {place : Nat}
    (placed : e.toLocal? id rank = some place) :
    ∃ value, part.shard.values[place]? = some value := by
  obtain ⟨own, ranged, held, rfl⟩ := Extents.toLocal?_eq_some_iff.1 placed
  have counted := laid.localSize
  rw [Extents.localSize, ranged] at counted
  have inside : own.offset id < part.shard.localSize :=
    Nat.lt_of_lt_of_eq (IdRange.offset_lt held) (Except.ok.inj counted)
  exact ⟨_, List.getElem?_eq_getElem inside⟩

variable {xs ys : Nat → VectorPart} (ops : Nat → Pairing)

/-- Ranges of equal sizes on every rank are equal ranges, so some rank sees the difference. -/
theorem exists_differing (populated : 0 < size) (left : ∀ rank < size, (xs rank).Over size rank ex)
    (right : ∀ rank < size, (ys rank).Over size rank ey) (differ : ex ≠ ey) :
    ∃ rank < size, (xs rank).shard.localSize ≠ (ys rank).shard.localSize := by
  by_contra! same
  refine differ (Extents.eq_of_localSize (left 0 populated).numRanks (right 0 populated).numRanks
    fun rank inside => ?_)
  rw [(left rank inside).localSize, (right rank inside).localSize, same rank inside]

/-- Over the same extents an operation succeeds, and combines the entries of each place. -/
theorem Over.run_eq (op : Pairing) {x y : VectorPart} (left : x.Over size rank e)
    (right : y.Over size rank e) :
    op.run x y = ⟨x.withShard { x.shard with
      values := List.zipWith (fun old other => op.entry old other) x.shard.values y.shard.values },
      .ok ()⟩ :=
  op.run_of_matching (Except.ok.inj (left.localSize.symm.trans right.localSize))
    (left.globalSize.trans right.globalSize.symm)

theorem contained_run (op : Pairing) (x y : VectorPart) : Contained x y (op.run x y) := by
  by_cases matching : x.shard.localSize = y.shard.localSize ∧
    x.shard.globalSize = y.shard.globalSize
  · rw [op.run_of_matching matching.1 matching.2]
    refine ⟨nofun, ghosts_withShard _ _, _, ?_, rfl⟩
    rw [List.length_zipWith]
    exact Nat.min_eq_left (Nat.le_of_eq matching.1)
  · rw [op.run_of_differing matching]
    exact ⟨fun _ came => ⟨(Except.error.inj came).symm, rfl⟩, rfl, _, rfl, x.withShard_self.symm⟩

/-- An operation of two vectors over a group succeeds on all ranks exactly if both are over the
same extents. Every id has then been combined with itself, by the operation of its owner. Over
different extents some rank refuses, for the sizes that it sees. A rank that refuses changes
nothing, and no rank changes anything but owned entries. -/
theorem pairings_act_on_ids (populated : 0 < size)
    (left : ∀ rank < size, (xs rank).Over size rank ex)
    (right : ∀ rank < size, (ys rank).Over size rank ey) :
    ((∀ rank < size, ((ops rank).run (xs rank) (ys rank)).outcome = .ok ()) ↔ ex = ey) ∧
    ((∀ rank < size, ((ops rank).run (xs rank) (ys rank)).outcome = .ok ()) →
      ∀ id, id < ex.globalSize → ∃ owner < size, ex.findOwner id = .ok owner ∧
        ∃ place old other, ex.toLocal? id owner = some place ∧
          (xs owner).shard.values[place]? = some old ∧
          (ys owner).shard.values[place]? = some other ∧
          ((ops owner).run (xs owner) (ys owner)).state.shard.values[place]? =
            some ((ops owner).entry old other)) ∧
    (ex ≠ ey → ∃ rank < size, ((ops rank).run (xs rank) (ys rank)).outcome =
      .error (Pairing.mismatch (xs rank) (ys rank))) ∧
    ∀ rank < size, Contained (xs rank) (ys rank) ((ops rank).run (xs rank) (ys rank)) := by
  have refusal (differ : ex ≠ ey) : ∃ rank < size,
      ((ops rank).run (xs rank) (ys rank)).outcome =
        .error (Pairing.mismatch (xs rank) (ys rank)) := by
    obtain ⟨rank, inside, apart⟩ := exists_differing populated left right differ
    exact ⟨rank, inside, by rw [(ops rank).run_of_differing fun same => apart same.1]⟩
  have same (passed : ∀ rank < size, ((ops rank).run (xs rank) (ys rank)).outcome = .ok ()) :
      ex = ey := by
    by_contra differ
    obtain ⟨rank, inside, refused⟩ := refusal differ
    cases refused.symm.trans (passed rank inside)
  refine ⟨⟨same, ?_⟩, fun passed id known => ?_, refusal,
    fun rank _ => contained_run (ops rank) _ _⟩
  · rintro rfl rank inside
    rw [(left rank inside).run_eq (ops rank) (right rank inside)]
  · cases same passed
    have inside : ex.ownerOf id < size := (left 0 populated).numRanks ▸ Extents.ownerOf_lt known
    have placed := Extents.toLocal?_seat known
    obtain ⟨old, before⟩ := (left _ inside).exists_entry placed
    obtain ⟨other, beside⟩ := (right _ inside).exists_entry placed
    refine ⟨ex.ownerOf id, inside, Extents.findOwner_eq known, _, old, other, placed, before,
      beside, ?_⟩
    rw [(left _ inside).run_eq (ops _) (right _ inside)]
    show (shard (withShard _ _)).values[_]? = _
    rw [shard_withShard, List.getElem?_zipWith, before, beside]

end group

/-- Both extents have one id for the second of three ranks, but not the same. -/
def early : Extents := ⟨[1, 2, 4], by decide, by decide⟩

def late : Extents := ⟨[2, 3, 4], by decide, by decide⟩

def onesOver (e : Extents) (rank : Nat) : VectorPart :=
  .plain ((Shard.zeroed ⟨rank, e.numRanks⟩ e default).fill .one)

theorem onesOver_over {e : Extents} {rank : Nat} (inside : rank < e.numRanks) :
    (onesOver e rank).Over e.numRanks rank e where
  topology := rfl
  extents := rfl
  wellFormed := by
    have sound : (Shard.zeroed ⟨rank, e.numRanks⟩ e default).WellFormed :=
      Shard.wellFormed_zeroed rfl inside
    obtain ⟨ranks, owned⟩ := sound
    exact ⟨ranks, owned.trans (congrArg Except.ok (List.length_map _).symm)⟩

/-- The second rank takes the shifted range for its own, the others do not. -/
theorem pairings_act_on_ids_shifted :
    (∃ rank < 3, (Pairing.add.run (onesOver early rank) (onesOver late rank)).outcome =
      .error (Pairing.mismatch (onesOver early rank) (onesOver late rank))) ∧
    (Pairing.add.run (onesOver early 1) (onesOver late 1)).outcome = .ok () ∧
    ((Pairing.scaleAdd .negZero).run (onesOver early 2) (onesOver early 2)).state.shard.values[1]? =
      some (.negZero * .one + .one) := by
  obtain ⟨-, -, refusal, -⟩ := pairings_act_on_ids (fun _ => .add) (by decide)
    (fun rank inside => onesOver_over (e := early) inside)
    (fun rank inside => onesOver_over (e := late) inside)
  obtain ⟨succeeds, combined, -⟩ := pairings_act_on_ids (fun _ => .scaleAdd .negZero) (by decide)
    (fun rank inside => onesOver_over (e := early) inside)
    (fun rank inside => onesOver_over (e := early) inside)
  refine ⟨refusal (by decide), rfl, ?_⟩
  obtain ⟨owner, -, found, place, old, other, placed, before, beside, after⟩ :=
    combined (succeeds.2 rfl) 3 (by decide)
  cases found
  cases placed
  cases before
  cases beside
  exact after

end VectorPart
end HaloVector
