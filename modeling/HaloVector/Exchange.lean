import HaloVector.Communicator
import HaloVector.Layout

/-!
# The all-to-all exchange

Every rank hands one part of a buffer to every rank of its group, and receives one
part from each. Both sides know the sizes beforehand, so an empty part needs no
message, and the part that a rank keeps for itself needs none either.

A rank first posts all receives, then sends everything, then waits for all that it
posted, whatever arrives. So a bad message of one peer leaves no other message
behind. The first fault is reported; what came before it stays in the buffer, and
what comes after it is dropped.

* `exchangeBytes` works on raw buffers.
* `exchange` works on buffers of cells.
-/

namespace HaloVector

/-! ## Bytes -/

/-- Takes over what arrived from one rank, unless there was a fault before. -/
def accept (incoming : Layout) (rank : Nat) (arrived : Except VectorError Bytes)
    (received : Attempt Bytes) : Attempt Bytes :=
  match received.outcome, arrived with
  | .error _, _ => received
  | .ok (), .ok data => ⟨writeAt received.state (incoming.offset rank) data, .ok ()⟩
  | .ok (), .error fault => ⟨received.state, .error fault⟩

/-- The part that a rank keeps. -/
def ownPart (me : Nat) (buffer : Bytes) (outgoing incoming : Layout) :
    Except VectorError Bytes :=
  if outgoing.count me = incoming.count me then .ok (outgoing.part buffer me)
  else .error (.bufferSizeMismatch me (incoming.count me) (outgoing.count me))

/-- The part that a peer sent. -/
def peerPart (incoming : Layout) (peer : Nat) : Option Bytes → Except VectorError Bytes
  | some data =>
    if data.length = incoming.count peer then .ok data
    else .error (.bufferSizeMismatch peer (incoming.count peer) data.length)
  | none => .error (.commError peer "no data received (wait returned None)")

/-- Posts a receive for every part that a peer will send. -/
def postReceives (incoming : Layout) (tag : Tag) (peers : List Nat) :
    Program (List (Nat × Ticket)) :=
  (incoming.nonempty peers).mapM fun peer => do
    let ticket ← Program.postReceive peer tag (incoming.count peer)
    pure (peer, ticket)

/-- Sends every part that a peer is to have. -/
def sendParts (buffer : Bytes) (outgoing : Layout) (tag : Tag) (peers : List Nat) :
    Program Unit :=
  (outgoing.nonempty peers).forM fun peer =>
    Program.sendMessage peer tag (outgoing.part buffer peer)

/-- Waits for every posted receive, in the order of posting. -/
def awaitParts (me : Nat) (incoming : Layout) (tickets : List (Nat × Ticket))
    (received : Attempt Bytes) : Program (Attempt Bytes) :=
  tickets.foldlM (fun received (peer, ticket) => do
    let reply ← Program.awaitReceive ticket
    Program.writeLog .trace
      s!"rank {me}: received {incoming.count peer} bytes from rank {peer}"
    pure (accept incoming peer (peerPart incoming peer reply) received)) received

/-- Waits until every part has left. -/
def flushParts (outgoing : Layout) (tag : Tag) (peers : List Nat) : Program Unit :=
  (outgoing.nonempty peers).forM (Program.flushSend · tag)

/-- Refuses layouts that do not fit the group and the buffers. -/
def checkLayouts (size : Nat) (sent : Bytes) (outgoing : Layout) (buffer : Bytes)
    (incoming : Layout) : Except VectorError Unit := do
  outgoing.check "all-to-all send layout" size sent.length
  incoming.check "all-to-all recv layout" size buffer.length

/-- Sends the parts of one buffer and fills the parts of another. Without well-formed
layouts nothing is sent or changed. -/
def exchangeBytes (c : Communicator) (sent : Bytes) (outgoing : Layout)
    (buffer : Bytes) (incoming : Layout) (tag : Tag) : Program (Attempt Bytes) :=
  let topology := c.topology
  let me := topology.rank
  match checkLayouts topology.size sent outgoing buffer incoming with
  | .error refusal => pure ⟨buffer, .error refusal⟩
  | .ok () => do
    let tickets ← postReceives incoming tag topology.peers
    sendParts sent outgoing tag topology.peers
    let own := accept incoming me (ownPart me sent outgoing incoming) ⟨buffer, .ok ()⟩
    let received ← awaitParts me incoming tickets own
    flushParts outgoing tag topology.peers
    pure received

/-! ## Cells -/

/-- Exchanges the parts of a buffer of cells. The result is as long as the incoming
layout needs, and zero outside its parts. -/
def exchange {α : Type} [Cell α] (c : Communicator) (sent : List α)
    (outgoing incoming : Layout) (tag : Tag) : Collective (List α) := do
  let width := Cell.width α
  let blank := List.replicate (incoming.extent * width) 0
  let received ← .ofAttempt <|
    exchangeBytes c (Cell.encodeAll sent) (outgoing.scale width) blank (incoming.scale width) tag
  pure (Cell.decodeAll incoming.extent received)

end HaloVector
