import HaloVector.Shard

/-!
# Deferred updates

Updates of entries by global id. The id is checked when an update is queued, so
every id that waits in a queue has an owner. A batch is queued as a whole or not at
all, unless it meets updates of the other kind.
-/

namespace HaloVector.Shard

/-- Refuses an id that no rank owns. -/
def checkId (s : Shard) (id : UInt64) : Except VectorError Unit :=
  if id < s.globalSize then .ok () else .error (.invalidGlobalId id s.globalSize)

/-- How many updates are waiting. -/
def numPending (s : Shard) : Nat := s.queue.length

def mode (s : Shard) : QueueMode := s.queue.mode

/-- The shard with what an attempt has made of its queue. -/
def withQueue (s : Shard) (attempt : Attempt OpQueue) : Attempt Shard :=
  ⟨{ s with queue := attempt.state }, attempt.outcome⟩

/-- Queues one update. -/
def enqueue (s : Shard) (kind : OpKind) (update : Update) : Attempt Shard :=
  match s.checkId update.id with
  | .error refusal => ⟨s, .error refusal⟩
  | .ok () => s.withQueue (s.queue.push s.topology.rank kind update)

/-- Queues a value for each of the ids. -/
def enqueueAll (s : Shard) (kind : OpKind) (ids : List UInt64) (values : List Scalar) :
    Attempt Shard :=
  let checked : Except VectorError Unit := do
    if ids.length ≠ values.length then
      throw (.lengthMismatch "batched values" ids.length values.length)
    ids.forM s.checkId
  match checked with
  | .error refusal => ⟨s, .error refusal⟩
  | .ok () =>
    s.withQueue (s.queue.pushAll s.topology.rank kind (List.zipWith Update.mk ids values))

/-- Brings all queued updates of the group to their owners. The queue is empty
afterwards, even if the communicator was not that of the group. -/
def assemble (s : Shard) (c : Communicator) : Program (Attempt Shard) :=
  match c.check s.topology with
  | .error refusal => pure ⟨{ s with queue := s.queue.drain.2 }, .error refusal⟩
  | .ok () => do
    let assembled ← HaloVector.assemble c s.extents s.values s.queue s.tags.assembly
    let { values, queue } := assembled.state
    pure ⟨{ s with values, queue }, assembled.outcome⟩

end HaloVector.Shard
