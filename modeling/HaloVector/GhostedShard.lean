import HaloVector.Halo
import HaloVector.Shard.Deferred

/-!
# Shards with ghosts

A shard together with copies of some entries of other ranks. The copies change only
when they are refreshed, and nothing else that is done to the shard reads or writes
them.
-/

namespace HaloVector

structure GhostedShard where
  shard : Shard
  halo : Halo
  /-- The copies, in the order of the ghost ids. -/
  ghosts : List Scalar
deriving DecidableEq

namespace GhostedShard

/-- A zero shard with zero ghosts, over a halo that was built before. -/
def ofHalo (halo : Halo) (tags : VectorTags) : GhostedShard where
  shard := .zeroed halo.topology halo.extents tags
  halo
  ghosts := List.replicate halo.numGhosts .zero

/-- A zero shard with zero ghosts on every rank of the group. -/
def create (c : Communicator) (localSize globalSize : UInt64) (ghostIds : List UInt64)
    (tags : VectorTags) : Collective GhostedShard := do
  let halo ← Halo.create c localSize globalSize ghostIds tags.halo
  pure (ofHalo halo tags)

/-- The owned entries, then the ghosts. -/
def buffer (g : GhostedShard) : List Scalar := g.shard.values ++ g.ghosts

/-- An entry by its global id, from the owned ones or from the ghosts. -/
def getGlobal (g : GhostedShard) (id : UInt64) : Except VectorError Scalar := do
  let owned := g.shard.ownedRange
  let index ←
    if owned.contains id then pure (owned.offset id)
    else if g.shard.globalSize ≤ id then throw (.invalidGlobalId id g.shard.globalSize)
    else g.halo.localIndex id
  pure (g.buffer.getD index .zero)

/-- Replaces every ghost by the current value of its owner. -/
def refresh (g : GhostedShard) (c : Communicator) : Collective GhostedShard := do
  Collective.ofExcept (c.check g.shard.topology)
  let buffer ← g.halo.refreshBuffer c g.buffer
  let size := g.shard.localSize
  pure { g with
    shard := { g.shard with values := buffer.take size }
    ghosts := buffer.drop size }

/-- The same entries and ghosts with nothing queued. -/
def copy (g : GhostedShard) : GhostedShard := { g with shard := g.shard.copy }

/-- The same layout, all zero, with nothing queued. -/
def blank (g : GhostedShard) : GhostedShard :=
  { g with shard := g.shard.blank, ghosts := g.ghosts.map fun _ => .zero }

end GhostedShard
end HaloVector
