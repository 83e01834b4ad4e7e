import HaloVector.Exchange.ByRank
import HaloVector.Extents.Collective
import HaloVector.Wire.Record

/-!
# Assembly

All ranks hand in the updates that they have queued, and every update reaches the
rank that owns its entry.

1. The queue is drained, whatever happens later.
2. The ranks agree on one mode. Sets and adds do not go together.
3. Updates of other ranks' entries travel to their owners.
4. Every rank checks all that it received, and the ranks agree on the outcome.
5. Only then each rank applies its own updates, and after them those of the other
   ranks by increasing rank, each in the order of queueing. The last set wins.

A rank at which sets of different ranks meet writes a warning that names the winner.
-/

namespace HaloVector

/-! ## The mode of the group -/

/-- The ranks that stand in the way of a common mode. -/
def offenders (modes : List QueueMode) : List (Nat × QueueMode) :=
  let greatest := QueueMode.greatest modes
  modes.zipIdx.filterMap fun (mode, rank) =>
    if mode = .mixed ∨ mode ≠ .empty ∧ mode ≠ greatest then some (rank, mode) else none

/-- The mode of the group, from the codes that its ranks report. -/
def groupMode (rank : Nat) (ownMode : QueueMode) (codes : List UInt8) :
    Except VectorError QueueMode :=
  let modes := codes.map fun code => (QueueMode.ofCode? code).getD .mixed
  let greatest := QueueMode.greatest modes
  let against := offenders modes
  if against.isEmpty then .ok greatest
  else .error (.modeMismatch rank ownMode greatest against)

/-- Finds the one mode in which every rank that has queued anything has done so. -/
def agreeOnMode (c : Communicator) (mode : QueueMode) : Collective QueueMode := do
  let codes ← gather c mode.code
  Collective.ofExcept (groupMode c.rank mode codes)

/-! ## Updates on their way -/

/-- The updates of each owner, in the order of queueing. -/
def updatesByOwner (extents : Extents) (updates : List Update) :
    Except VectorError (RankMap (List Update)) := do
  let owned ← updates.mapM fun update => do
    pure (← extents.findOwner update.id, update)
  pure ((RankMap.groupBy Prod.fst owned).map fun _ => List.map Prod.snd)

/-- The updates in the records of one rank, which must all be for this rank. -/
def readRecords (me : Nat) (own : IdRange) (source : Nat) (bytes : Bytes) :
    Except VectorError (List Update) :=
  match Update.decodeAll? bytes with
  | none => .error (.malformedRecords me source bytes.length Update.recordSize)
  | some updates =>
    match updates.find? (!own.contains ·.id) with
    | some foreign =>
      .error (.foreignAssemblyTarget me source foreign.id own.start own.stop)
    | none => .ok updates

/-- All received updates with their source, by increasing source. -/
def readReceived (me : Nat) (own : IdRange) (received : RankMap Bytes) :
    Except VectorError (List (Nat × Update)) := do
  let batches ← received.toList.mapM fun (source, bytes) => do
    let updates ← readRecords me own source bytes
    pure (updates.map (source, ·))
  pure batches.flatten

/-- Refuses a buffer with fewer entries than the rank owns. -/
def checkRoom (length localSize : Nat) : Except VectorError Unit :=
  if length < localSize then
    .error (.lengthMismatch "assembly value buffer" localSize length)
  else .ok ()

/-! ## Applying updates -/

/-- The new value of an entry. -/
def QueueMode.apply : QueueMode → (old new : Scalar) → Scalar
  | .set, _, new => new
  | _, old, new => old.increase new

/-- Applies updates of owned entries from left to right, if all entries are there. -/
def applyUpdates? (mode : QueueMode) (own : IdRange) :
    (values : List Scalar) → List Update → Option (List Scalar)
  | values, [] => some values
  | values, update :: rest => do
    let place := own.offset update.id
    let old ← values[place]?
    applyUpdates? mode own (values.set place (mode.apply old update.value)) rest

/-- Applies updates to the owned entries at the front of a buffer. What follows them is
out of reach. -/
def applyToOwned? (mode : QueueMode) (own : IdRange) (values : List Scalar)
    (updates : List Update) : Option (List Scalar) := do
  let applied ← applyUpdates? mode own (values.take own.length) updates
  some (applied ++ values.drop own.length)

/-- Two ranks have set the same entry, `later` after `earlier`. -/
structure Conflict where
  id : UInt64
  earlier : Nat
  later : Nat
deriving DecidableEq, Repr

def Conflict.text (x : Conflict) : String :=
  s!"global id {x.id} set by both rank {x.earlier} and rank {x.later}; rank {x.later} wins"

/-- Where a set of one rank follows a set of another on the same entry. The last rank
to set each entry so far is in `last`. -/
def conflictsAfter (last : Std.ExtTreeMap UInt64 Nat) : List (Nat × Update) → List Conflict
  | [] => []
  | (rank, update) :: rest =>
    let later := conflictsAfter (last.insert update.id rank) rest
    match last[update.id]? with
    | some earlier =>
      if earlier = rank then later else ⟨update.id, earlier, rank⟩ :: later
    | none => later

def conflicts (mode : QueueMode) (updates : List (Nat × Update)) : List Conflict :=
  if mode = .set then conflictsAfter ∅ updates else []

/-! ## Assembling -/

/-- Brings drained updates to their owners, and returns the new entries. -/
def assembleDrained (c : Communicator) (extents : Extents) (values : List Scalar)
    (drained : Drained) (tags : AssemblyTags) : Collective (List Scalar) := do
  let me := c.rank
  let own ← Collective.ofExcept (extents.range me)
  let mode ← agreeOnMode c drained.mode
  if mode = .empty then return values
  let byOwner ← Collective.ofExcept (updatesByOwner extents drained.updates)
  let remote := byOwner.erase me
  let received ← exchangeByRank c (remote.map fun _ => Update.encodeAll) tags.records
  let checked := do
    checkRoom values.length own.length
    readReceived me own received
  let incoming ← agreeOnOutcome c checked "assembly"
  let mine := byOwner.listOf me
  let all := mine.map (me, ·) ++ incoming
  let applied ← Collective.inBounds (applyToOwned? mode own values (all.map Prod.snd))
  (conflicts mode all).forM fun conflict => Collective.log .warn conflict.text
  let sent := totalCount (remote.toList.map (·.2.length))
  Collective.log .debug <|
    s!"rank {me}: assembled {mode.text}: {mine.length} local, " ++
    s!"{sent} sent to {remote.size} ranks, {incoming.length} received"
  pure applied

/-- What an assembly leaves behind. -/
structure Assembled where
  values : List Scalar
  queue : OpQueue

/-- Takes everything from the queue and brings it to the owners. The entries change
only if the assembly succeeds on every rank. -/
def assemble (c : Communicator) (extents : Extents) (values : List Scalar) (queue : OpQueue)
    (tags : AssemblyTags) : Program (Attempt Assembled) := do
  let (drained, queue) := queue.drain
  match ← (assembleDrained c extents values drained tags).run with
  | .ok values => pure ⟨⟨values, queue⟩, .ok ()⟩
  | .error e => pure ⟨⟨values, queue⟩, .error e⟩

end HaloVector
