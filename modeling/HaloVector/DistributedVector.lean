import HaloVector.GhostedShard

/-!
# Distributed vectors

What shards with and without ghosts have in common, so that a solver can be written
for both. Refreshing the ghosts of a shard that has none only checks the
communicator.
-/

namespace HaloVector

class DistributedVector (V : Type) where
  /-- The owned part. -/
  shard : V → Shard
  /-- The vector with another owned part. -/
  withShard : V → Shard → V
  /-- Brings all ghosts up to date. -/
  updateGhosts : V → Communicator → Collective V

namespace DistributedVector

variable {V : Type} [DistributedVector V]

def extents (v : V) : Extents := (shard v).extents
def localValues (v : V) : List Scalar := (shard v).values
def localSize (v : V) : Nat := (localValues v).length
def globalSize (v : V) : UInt64 := (extents v).globalSize

/-- The vector with what an attempt has made of its owned part. -/
def withAttempt (v : V) (attempt : Attempt Shard) : Attempt V :=
  ⟨withShard v attempt.state, attempt.outcome⟩

/-- Writes an owned entry, if there is one with this index. -/
def setLocal? (v : V) (index : Nat) (value : Scalar) : Option V :=
  ((shard v).set? index value).map (withShard v)

def queueSet (v : V) (id : UInt64) (value : Scalar) : Attempt V :=
  withAttempt v ((shard v).enqueue .set ⟨id, value⟩)

def queueAdd (v : V) (id : UInt64) (value : Scalar) : Attempt V :=
  withAttempt v ((shard v).enqueue .add ⟨id, value⟩)

/-- Brings all queued updates of the group to their owners. -/
def assembleQueued (v : V) (c : Communicator) : Program (Attempt V) := do
  pure (withAttempt v (← (shard v).assemble c))

end DistributedVector

instance : DistributedVector Shard where
  shard := id
  withShard _ s := s
  updateGhosts s c := do
    Collective.ofExcept (c.check s.topology)
    pure s

instance : DistributedVector GhostedShard where
  shard := GhostedShard.shard
  withShard g s := { g with shard := s }
  updateGhosts := GhostedShard.refresh

end HaloVector
