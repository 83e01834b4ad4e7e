import HaloVector.Proofs.Reachable

/-!
# Block updates

A vector takes over a block of values, or a block of another vector. Offsets and lengths are words
that come from callers, so the end of a block may be past the last word. It is compared with the
number of owned entries all the same, and never with the length of the buffer, in which ghosts
follow.

* `VectorPart.Overwritten` says what a block has changed, entry by entry, and `VectorPart.Decided`
  that it is written as a whole or nothing is.
* `VectorPart.decided_setBlock` and `VectorPart.decided_copyBlock`: a block is written if it fits,
  and otherwise the first range that does not fit is named.
* `VectorPart.block_updates_are_exact` says so of all vectors that there can be.
-/

namespace HaloVector.VectorPart

/-- The owned entries, then the ghosts. -/
def buffer (part : VectorPart) : List Scalar := part.shard.values ++ part.ghosts

/-- Replaces the owned entries from `offset` on. -/
def setBlock (part : VectorPart) (offset : Nat) (values : List Scalar) : Attempt VectorPart :=
  DistributedVector.withAttempt part ((ShardCall.setBlock offset values).run part.shard)

/-- Replaces a block of owned entries by a block of another vector. -/
def copyBlock (part source : VectorPart) (sourceOffset offset count : Nat) :
    Attempt VectorPart :=
  DistributedVector.withAttempt part
    ((ShardCall.copyBlock source.shard sourceOffset offset count).run part.shard)

/-- The error for a block that runs past `length`. It names the last word if the end is none. -/
def blockError (what : String) (offset count length : Nat) : VectorError :=
  .rangeOutOfBounds what offset (min (offset + count) lastIndex) length

/-- What has become of a part if `count` entries from `offset` on were replaced. -/
structure Overwritten (part : VectorPart) (offset count : Nat) (entry : Nat → Option Scalar)
    (later : VectorPart) : Prop where
  frame : ∃ values, later = part.withShard { part.shard with values }
  entries : ∀ index, later.buffer[index]? =
    if offset ≤ index ∧ index < offset + count then entry (index - offset)
    else part.buffer[index]?

/-- A block is taken over if it `fits`. Otherwise the part stays as it is, and `e` says why. -/
structure Decided (part : VectorPart) (fits : Prop) (e : VectorError)
    (written : VectorPart → Prop) (attempt : Attempt VectorPart) : Prop where
  accepted : attempt.outcome = .ok () ↔ fits
  written : attempt.outcome = .ok () → written attempt.state
  refused : ∀ error, attempt.outcome = .error error → attempt.state = part ∧ error = e

section block

variable {part : VectorPart} {offset count : Nat}

theorem decided_of_ok {fits : Prop} {e : VectorError} {written : VectorPart → Prop}
    {s : Shard} (here : fits) (done : written (part.withShard s)) :
    part.Decided fits e written
      (DistributedVector.withAttempt part (.orElse part.shard (.ok s))) where
  accepted := iff_of_true rfl here
  written _ := done
  refused := nofun

theorem decided_of_error {fits : Prop} {e : VectorError} {written : VectorPart → Prop}
    (beyond : ¬fits) :
    part.Decided fits e written
      (DistributedVector.withAttempt part (.orElse part.shard (.error e))) where
  accepted := iff_of_false nofun beyond
  written := nofun
  refused := by
    rintro _ ⟨⟩
    exact ⟨part.withShard_self, rfl⟩

/-! ## Writing -/

theorem checkBlock_of_beyond {what : String} {length : Nat} (beyond : ¬offset + count ≤ length) :
    checkBlock what offset count length = .error (blockError what offset count length) :=
  if_neg beyond

/-- A block that fits into the owned entries leaves the ghosts behind them as they are. -/
theorem overwritten_writeAt {data : List Scalar}
    (fits : offset + data.length ≤ part.shard.localSize) :
    part.Overwritten offset data.length (data[·]?)
      (part.withShard { part.shard with values := writeAt part.shard.values offset data }) where
  frame := ⟨_, rfl⟩
  entries index := by
    have same : (writeAt part.shard.values offset data).length = part.shard.values.length :=
      length_writeAt fits
    rw [Shard.localSize] at fits
    rw [buffer, shard_withShard, ghosts_withShard, buffer, List.getElem?_append,
      List.getElem?_append, same, getElem?_writeAt fits]
    grind

theorem Overwritten.congr {entry other : Nat → Option Scalar} {later : VectorPart}
    (written : part.Overwritten offset count entry later)
    (same : ∀ place < count, entry place = other place) :
    part.Overwritten offset count other later where
  frame := written.frame
  entries index := by
    rw [written.entries index]
    split
    · rename_i inside
      exact same _ (Nat.sub_lt_left_of_lt_add inside.1 inside.2)
    · rfl

theorem decided_setBlock (part : VectorPart) (offset : Nat) (values : List Scalar) :
    part.Decided (offset + values.length ≤ part.shard.localSize)
      (blockError "block set" offset values.length part.shard.localSize)
      (part.Overwritten offset values.length (values[·]?)) (part.setBlock offset values) := by
  rw [setBlock, ShardCall.run, Shard.setBlock]
  by_cases fits : offset + values.length ≤ part.shard.localSize
  · rw [checkBlock_eq_ok_iff.2 fits]
    exact decided_of_ok fits (overwritten_writeAt fits)
  · rw [checkBlock_of_beyond fits]
    exact decided_of_error fits

theorem decided_copyBlock (part source : VectorPart) (sourceOffset offset count : Nat) :
    part.Decided
      (sourceOffset + count ≤ source.shard.localSize ∧ offset + count ≤ part.shard.localSize)
      (if sourceOffset + count ≤ source.shard.localSize
        then blockError "block copy destination" offset count part.shard.localSize
        else blockError "block copy source" sourceOffset count source.shard.localSize)
      (part.Overwritten offset count fun place => source.shard.values[sourceOffset + place]?)
      (part.copyBlock source sourceOffset offset count) := by
  rw [copyBlock, ShardCall.run, Shard.copyBlock]
  by_cases there : sourceOffset + count ≤ source.shard.localSize
  · rw [checkBlock_eq_ok_iff.2 there, if_pos there]
    by_cases fits : offset + count ≤ part.shard.localSize
    · rw [checkBlock_eq_ok_iff.2 fits]
      have copied := length_slice there
      have written := overwritten_writeAt (copied.symm ▸ fits)
      rw [copied] at written
      refine decided_of_ok ⟨there, fits⟩ (written.congr fun place inside => ?_)
      rw [slice, List.getElem?_take_of_lt inside, List.getElem?_drop]
    · rw [checkBlock_of_beyond fits]
      exact decided_of_error fun both => fits both.2
  · rw [checkBlock_of_beyond there, if_neg there]
    exact decided_of_error fun both => there both.1

end block

/-! ## Exactness -/

theorem Reachable.localSize_le {part : VectorPart} (reachable : part.Reachable) :
    part.shard.localSize ≤ lastIndex := by
  have whole := reachable.wellFormed.2
  unfold Extents.localSize at whole
  cases found : part.shard.extents.range part.shard.topology.rank with
  | error e =>
    rw [found] at whole
    cases whole
  | ok range =>
    rw [found] at whole
    injection whole with same
    rw [Shard.localSize, ← same]
    exact Nat.le_of_lt_succ (range.stop - range.start).toNat_lt

/-- A block is taken over if it ends within the owned entries, and then as a whole. Otherwise
nothing changes, and the first range that runs past its vector is named, the source before the
destination. Ghosts neither count nor change. Owned entries end at a word, so an end that is past
the last word is never mistaken for a smaller one. -/
theorem block_updates_are_exact {part source : VectorPart} (reachable : part.Reachable)
    (lent : source.Reachable) :
    ∃ owned available,
      part.shard.extents.localSize part.shard.topology.rank = .ok owned ∧
      source.shard.extents.localSize source.shard.topology.rank = .ok available ∧
      owned ≤ lastIndex ∧ available ≤ lastIndex ∧
      (∀ offset values,
        part.Decided (offset + values.length ≤ owned)
          (blockError "block set" offset values.length owned)
          (part.Overwritten offset values.length (values[·]?))
          (part.setBlock offset values)) ∧
      ∀ sourceOffset offset count,
        part.Decided (sourceOffset + count ≤ available ∧ offset + count ≤ owned)
          (if sourceOffset + count ≤ available
            then blockError "block copy destination" offset count owned
            else blockError "block copy source" sourceOffset count available)
          (part.Overwritten offset count
            fun place => source.shard.values[sourceOffset + place]?)
          (part.copyBlock source sourceOffset offset count) :=
  ⟨_, _, reachable.wellFormed.2, lent.wellFormed.2, reachable.localSize_le, lent.localSize_le,
    part.decided_setBlock, part.decided_copyBlock source⟩

/-- The first of two ranks owns two entries and has a ghost, which no block reaches. -/
theorem block_updates_are_exact_ghosted :
    ∃ part source : VectorPart, part.Reachable ∧ source.Reachable ∧
      part.buffer = [.zero, .zero, .zero] ∧
      (part.setBlock 1 [.one]).state.buffer[1]? = some .one ∧
      (part.setBlock 1 [.one]).state.buffer[2]? = some .zero ∧
      (part.setBlock 2 []).outcome = .ok () ∧
      (part.setBlock 2 [.one]).outcome ≠ .ok () ∧
      (∀ e, (part.setBlock 3 []).outcome = .error e → e = .rangeOutOfBounds "block set" 3 3 2) ∧
      (∀ e, (part.setBlock lastIndex [.one, .one]).outcome = .error e →
        e = .rangeOutOfBounds "block set" lastIndex lastIndex 2) ∧
      (part.copyBlock source 0 1 1).outcome = .ok () ∧
      ∀ e, (part.copyBlock source 0 1 2).outcome = .error e →
        e = .rangeOutOfBounds "block copy source" 0 2 1 := by
  obtain ⟨h, ended, owned, zeros⟩ : ∃ h, requestedEnding = .finished (.ok h) ∧
      h.extents.localSize h.topology.rank = .ok 2 ∧
      (ghosted (.ofHalo h default)).buffer = [.zero, .zero, .zero] := by
    have decided : (match requestedEnding with
        | .finished (.ok h) => decide (h.extents.localSize h.topology.rank = .ok 2 ∧
            (ghosted (.ofHalo h default)).buffer = [.zero, .zero, .zero])
        | .finished (.error _) => false
        | .halted _ => false) = true := by decide +kernel
    split at decided
    · exact ⟨_, ‹_›, of_decide_eq_true decided⟩
    · cases decided
    · cases decided
  have made : h.Made := ⟨_, _, _, _, _, .ofExtents _ _ _, ended⟩
  have laid : Shard.ofExtents (.member 0 2) oneAndTwo default =
      .ok (.zeroed ⟨0, 2⟩ oneAndTwo default) := rfl
  have lent := Reachable.ofExtents laid
  obtain ⟨_, _, two, one, -, -, sets, copies⟩ :=
    block_updates_are_exact (.ofHalo made default) lent
  cases owned.symm.trans two
  cases (rfl : oneAndTwo.localSize 0 = .ok 1).symm.trans one
  have within := (sets 1 [.one]).written ((sets 1 [.one]).accepted.2 (by decide))
  refine ⟨_, _, .ofHalo made default, lent, zeros, within.entries 1, ?_,
    (sets 2 []).accepted.2 (by decide), fun done => ?_, fun e failed => ?_, fun e failed => ?_,
    (copies 0 1 1).accepted.2 (by decide), fun e failed => ?_⟩
  · rw [within.entries 2, zeros]
    rfl
  · exact absurd ((sets 2 [.one]).accepted.1 done) (by decide)
  · exact ((sets 3 []).refused e failed).2
  · exact ((sets lastIndex [.one, .one]).refused e failed).2
  · exact ((copies 0 1 2).refused e failed).2

end HaloVector.VectorPart
