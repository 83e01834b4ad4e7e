import HaloVector.Extents.Collective
import HaloVector.Exchange.ByRank

/-!
# Ghost plans

A ghost is a local copy of an entry that another rank owns. A plan says, for one
rank, which of its entries go to which rank whenever ghosts are refreshed, and where
the ghosts that come back are in what it receives. Received ghosts are ordered by
owner, and those of one owner in the order in which they were wanted.

* `Plan.build` asks every owner for the wanted ids, and learns from the same
  exchange what others want from this rank.
* `Plan.validate` checks a plan by itself. A plan that was read rather than built
  may fail it.
-/

namespace HaloVector

/-! ## Ghost ids -/

/-- The first value that occurred before. -/
def firstRepeat? {α : Type} [BEq α] (seen : List α) : List α → Option α
  | [] => none
  | a :: rest => if seen.contains a then some a else firstRepeat? (a :: seen) rest

/-- The owner of a ghost id, which must be another rank. -/
def ghostOwner (extents : Extents) (me : Nat) (id : UInt64) : Except VectorError Nat := do
  let owner ← extents.findOwner id
  if owner = me then throw (.ghostIdLocallyOwned id me)
  pure owner

/-- The range of this rank and the wanted ids by owner, if all are good ghost ids. -/
def groupByOwner (topology : Topology) (extents : Extents) (ghostIds : List UInt64) :
    Except VectorError (IdRange × RankMap (List UInt64)) := do
  extents.checkNumRanks topology.size
  let own ← extents.range topology.rank
  let owned ← ghostIds.mapM fun id => do
    pure (← ghostOwner extents topology.rank id, id)
  if let some id := firstRepeat? [] ghostIds then throw (.duplicateGhostId id)
  pure (own, (RankMap.groupBy Prod.fst owned).map fun _ => List.map Prod.snd)

/-- The local places of requested ids, which must all be in the range of this rank. -/
def localizeRequests (me : Nat) (own : IdRange) (requests : RankMap (List UInt64)) :
    Except VectorError (List Nat) := do
  let places ← requests.toList.mapM fun (requester, ids) =>
    ids.mapM fun id =>
      if own.contains id then .ok (own.offset id)
      else .error (.foreignGhostRequest me requester id own.start own.stop)
  pure places.flatten

/-! ## Plans -/

structure Plan where
  /-- The local entries to send, by receiving rank. -/
  outgoing : Layout
  /-- The ghosts to receive, by sending rank. -/
  incoming : Layout
  /-- The local places of the entries to send, one after the other. -/
  localIds : List Nat
  /-- Where each ghost is among the received ones. -/
  positions : Std.ExtTreeMap UInt64 Nat
  localSize : Nat
deriving DecidableEq

namespace Plan

/-- The plan of a rank that exchanges nothing. -/
def empty : Plan := ⟨⟨[], []⟩, ⟨[], []⟩, [], ∅, 0⟩

instance : Inhabited Plan := ⟨empty⟩

/-- How many entries are sent. -/
def numSent (p : Plan) : Nat := p.localIds.length

/-- How many ghosts are received. -/
def numReceived (p : Plan) : Nat := p.positions.size

/-- Where a ghost is among the received ones. -/
def position? (p : Plan) (id : UInt64) : Option Nat := p.positions[id]?

/-- Refuses a plan that contradicts itself. -/
def validate (p : Plan) : Except VectorError Unit := do
  let sent := totalCount p.outgoing.counts
  let received := totalCount p.incoming.counts
  if received ≠ p.numReceived then
    throw (.lengthMismatch "ghost plan receive total" p.numReceived received)
  if sent ≠ p.numSent then
    throw (.lengthMismatch "ghost plan send total" p.numSent sent)
  if p.outgoing ≠ .packed p.outgoing.counts ∨ p.incoming ≠ .packed p.incoming.counts then
    throw (.invalidExtents "ghost plan displacements are not prefix sums of counts")
  if let some place := p.localIds.find? (p.localSize ≤ ·) then
    throw (.invalidLocalId place p.localSize)
  if let some place := (p.positions.toList.map Prod.snd).find? (received ≤ ·) then
    throw (.invalidLocalId place received)

/-- Halts unless the plan is valid. -/
def assertValid (p : Plan) (rank : Option Nat) : Program Unit :=
  match p.validate with
  | .ok () => pure ()
  | .error cause => .halt (.brokenInvariant rank "GhostCommPlan" cause)

/-- The position of every wanted id when the lists of all owners follow each other. -/
def positionsOf (wanted : RankMap (List UInt64)) (size : Nat) : Std.ExtTreeMap UInt64 Nat :=
  .ofList (wanted.concat size).zipIdx

/-- Makes the plan of this rank for the given ghosts. All ranks of the group build
their plans together, and all fail if one does. -/
def build (c : Communicator) (extents : Extents) (ghostIds : List UInt64)
    (tags : ExchangeTags) : Collective Plan := do
  let topology := c.topology
  let me := topology.rank
  let operation := "ghost plan build"
  let (own, wanted) ← agreeOnOutcome c (groupByOwner topology extents ghostIds) operation
  let requests ← exchangeByRank c wanted tags
  let localIds ← agreeOnOutcome c (localizeRequests me own requests) operation
  let plan : Plan := {
    outgoing := .packed (requests.counts topology.size)
    incoming := .packed (wanted.counts topology.size)
    localIds
    positions := positionsOf wanted topology.size
    localSize := own.length }
  ExceptT.lift (plan.assertValid (some me))
  let owners := plan.incoming.counts.countP (0 < ·)
  let requesters := plan.outgoing.counts.countP (0 < ·)
  Collective.log .debug <|
    s!"rank {me}: ghost plan receives {plan.numReceived} values from {owners} ranks, " ++
    s!"sends {plan.numSent} values to {requesters} ranks"
  pure plan

end Plan
end HaloVector
