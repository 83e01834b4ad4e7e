import HaloVector.Halo.Plan

/-!
# Halos

The ghosts of one rank together with what it takes to refresh them. A halo is built
once for a list of ghost ids and then used any number of times, for buffers of any
kind of cells. Ghosts lie in a buffer in the order in which their ids were given,
while they arrive ordered by owner; `Halo.slots` leads from one order to the other.

A communicator of another topology belongs to another group. It is refused on the
spot, because the ranks of this group would never be reached through it.
-/

namespace HaloVector

structure Halo where
  topology : Topology
  extents : Extents
  ghostIds : List UInt64
  /-- The place of each ghost id among the ghost ids. -/
  places : Std.ExtTreeMap UInt64 Nat
  /-- Where each ghost is among the received ones. -/
  slots : List Nat
  plan : Plan
  tags : HaloTags
deriving DecidableEq

/-- Goes through ghost ids from `place` on, and adds the place of each. -/
def ghostPlacesFrom (extents : Extents) (me : Nat) (places : Std.ExtTreeMap UInt64 Nat)
    (place : Nat) : List UInt64 → Except VectorError (Std.ExtTreeMap UInt64 Nat)
  | [] => .ok places
  | id :: rest => do
    discard <| ghostOwner extents me id
    if places.contains id then throw (.duplicateGhostId id)
    ghostPlacesFrom extents me (places.insert id place) (place + 1) rest

/-- The place of every ghost id, if all are good ghost ids. -/
def ghostPlaces (topology : Topology) (extents : Extents) (ghostIds : List UInt64) :
    Except VectorError (Std.ExtTreeMap UInt64 Nat) := do
  extents.checkNumRanks topology.size
  ghostPlacesFrom extents topology.rank ∅ 0 ghostIds

/-- The entries of a buffer at the given places, if it has them all. -/
def entriesAt? {α : Type} (buffer : List α) (places : List Nat) : Option (List α) :=
  places.mapM (buffer[·]?)

/-- Refuses a buffer of the wrong length. -/
def checkLength (what : String) (expected got : Nat) : Except VectorError Unit :=
  if expected = got then .ok () else .error (.lengthMismatch what expected got)

namespace Halo

/-! ## Construction -/

/-- Makes the halo of a rank over extents that all ranks share. -/
def ofExtents (c : Communicator) (extents : Extents) (ghostIds : List UInt64)
    (tags : HaloTags) : Collective Halo := do
  let topology := c.topology
  let places ← agreeOnOutcome c (ghostPlaces topology extents ghostIds)
    "ghost communicator construction"
  let plan ← Plan.build c extents ghostIds tags.plan
  let slots ← Collective.ofExcept <| ghostIds.mapM fun id =>
    match plan.position? id with
    | some position => .ok position
    | none => .error (.unknownGhostId id)
  pure { topology, extents, ghostIds, places, slots, plan, tags }

/-- Lays out the extents of the group, then makes the halo of each rank. -/
def create (c : Communicator) (localSize globalSize : UInt64) (ghostIds : List UInt64)
    (tags : HaloTags) : Collective Halo := do
  let extents ← Extents.buildDeclared c localSize globalSize
    "ghost communicator construction"
  ofExtents c extents ghostIds tags

/-! ## Reading -/

def numGhosts (h : Halo) : Nat := h.ghostIds.length

/-- How many entries the rank itself owns. -/
def localSize (h : Halo) : Nat :=
  match h.extents.localSize h.topology.rank with
  | .ok size => size
  | .error _ => 0

def globalSize (h : Halo) : UInt64 := h.extents.globalSize

/-- The index of a ghost in a buffer where ghosts follow the owned entries. -/
def localIndex (h : Halo) (id : UInt64) : Except VectorError Nat :=
  match h.places[id]? with
  | some place => .ok (h.localSize + place)
  | none => .error (.unknownGhostId id)

/-! ## Buffers -/

variable {α : Type} [Cell α]

/-- A zero buffer for the owned entries and the ghosts. -/
def blankBuffer (h : Halo) : List α :=
  List.replicate (h.localSize + h.numGhosts) (Cell.zero α)

/-- Owned entries followed by zero ghosts. -/
def bufferOf (h : Halo) (owned : List α) : Except VectorError (List α) := do
  checkLength "local values" h.localSize owned.length
  pure (owned ++ List.replicate h.numGhosts (Cell.zero α))

/-! ## Refreshing -/

/-- Sends the owned entries that others want, and returns the ghosts in the order of
their ids. -/
def fetch (h : Halo) (c : Communicator) (owned : List α) : Collective (List α) := do
  let sent ← Collective.inBounds (entriesAt? owned h.plan.localIds)
  let received ← exchange c sent h.plan.outgoing h.plan.incoming h.tags.values
  let fresh ← Collective.inBounds (entriesAt? received h.slots)
  Collective.log .trace <|
    s!"rank {h.topology.rank}: ghost exchange sent {sent.length}, received {received.length}"
  pure fresh

/-- Replaces every ghost by the owner's current value. All ranks of the group take part,
and nothing moves unless the buffers of all have the right lengths. -/
def refresh (h : Halo) (c : Communicator) (owned ghosts : List α) : Collective (List α) := do
  Collective.ofExcept (c.check h.topology)
  let lengths := do
    checkLength "local values" h.localSize owned.length
    checkLength "ghost buffer" h.numGhosts ghosts.length
  agreeOnOutcome c lengths "ghost exchange"
  h.fetch c owned

/-- The same for one buffer in which the ghosts follow the owned entries. -/
def refreshBuffer (h : Halo) (c : Communicator) (buffer : List α) : Collective (List α) := do
  Collective.ofExcept (c.check h.topology)
  let length := checkLength "ghosted buffer" (h.localSize + h.numGhosts) buffer.length
  agreeOnOutcome c length "ghost exchange"
  let owned := buffer.take h.localSize
  let ghosts ← h.fetch c owned
  pure (owned ++ ghosts)

end Halo
end HaloVector
