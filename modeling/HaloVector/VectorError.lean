import HaloVector.Topology
import HaloVector.QueueMode

/-!
# Errors

Every way in which an operation on a distributed vector can fail, with what its
message needs to name. Errors fall into two classes:
* an *invalid argument* is seen by the rank that passed it, and that rank may go on;
* a *protocol* error breaks an agreement between ranks, and is fatal for the group.
-/

namespace HaloVector

inductive ErrorClass
  | invalidArgument
  | protocol
deriving DecidableEq, Repr

def ErrorClass.text : ErrorClass → String
  | .invalidArgument => "InvalidArgument"
  | .protocol => "Protocol"

inductive VectorError
  /-- A global id is not below the global size. -/
  | invalidGlobalId (id globalSize : UInt64)
  /-- A local index is outside the local entries. -/
  | invalidLocalId (index length : Nat)
  /-- An argument has the wrong number of entries. -/
  | lengthMismatch (what : String) (expected got : Nat)
  /-- A block runs past the end of what it selects from. -/
  | rangeOutOfBounds (what : String) (offset stop length : Nat)
  | invalidRank (rank size : Nat)
  /-- A collective operation was called with another communicator than its
  object was built with. -/
  | communicatorMismatch (expected got : Topology)
  /-- The declared global size is not the sum of the local sizes. -/
  | globalSizeMismatch (declared computed : UInt64)
  | incompatibleLayout (leftLocal rightLocal : Nat) (leftGlobal rightGlobal : UInt64)
  | invalidExtents (reason : String)
  /-- The sum of the local sizes is not a global id. -/
  | sizeOverflow
  | ghostIdLocallyOwned (id : UInt64) (rank : Nat)
  | duplicateGhostId (id : UInt64)
  | unknownGhostId (id : UInt64)
  /-- A step failed on other ranks of the group. -/
  | peerFailed (rank : Nat) (operation : String) (failedRanks : List Nat)
      (severity : ErrorClass)
  /-- Sets and adds were queued on one rank. -/
  | mixedOperationModes (rank : Nat) (attempted pendingMode : QueueMode) (pending : Nat)
  /-- Ranks came to an assembly with different modes. -/
  | modeMismatch (rank : Nat) (localMode globalMode : QueueMode)
      (offenders : List (Nat × QueueMode))
  /-- A peer asked for an id that this rank does not own. -/
  | foreignGhostRequest (rank requester : Nat) (id start stop : UInt64)
  /-- A peer sent an update for an id that this rank does not own. -/
  | foreignAssemblyTarget (rank source : Nat) (id start stop : UInt64)
  /-- Received bytes are not a whole number of records. -/
  | malformedRecords (rank source length recordSize : Nat)
  /-- A message does not have the size that both sides agreed on. -/
  | bufferSizeMismatch (neighbor expected got : Nat)
  /-- The transport failed to deliver a message. -/
  | commError (neighbor : Nat) (message : String)
deriving DecidableEq, Repr

/-- Writes a list as `[a, b, c]`. -/
def bracketed (items : List String) : String :=
  "[" ++ ", ".intercalate items ++ "]"

namespace VectorError

def severity : VectorError → ErrorClass
  | mixedOperationModes .. | modeMismatch .. | foreignGhostRequest ..
  | foreignAssemblyTarget .. | malformedRecords .. | bufferSizeMismatch ..
  | commError .. => .protocol
  | peerFailed _ _ _ severity => severity
  | _ => .invalidArgument

/-- The error ends the work of the whole group. -/
def isFatal (e : VectorError) : Bool := e.severity = .protocol

/-- What kind of error it is, as a word. -/
def name : VectorError → String
  | invalidGlobalId .. => "InvalidGlobalId"
  | invalidLocalId .. => "InvalidLocalId"
  | lengthMismatch .. => "LengthMismatch"
  | rangeOutOfBounds .. => "RangeOutOfBounds"
  | invalidRank .. => "InvalidRank"
  | communicatorMismatch .. => "CommunicatorMismatch"
  | globalSizeMismatch .. => "GlobalSizeMismatch"
  | incompatibleLayout .. => "IncompatibleLayout"
  | invalidExtents .. => "InvalidExtents"
  | sizeOverflow => "SizeOverflow"
  | ghostIdLocallyOwned .. => "GhostIdLocallyOwned"
  | duplicateGhostId .. => "DuplicateGhostId"
  | unknownGhostId .. => "UnknownGhostId"
  | peerFailed .. => "PeerFailed"
  | mixedOperationModes .. => "MixedOperationModes"
  | modeMismatch .. => "ModeMismatch"
  | foreignGhostRequest .. => "ForeignGhostRequest"
  | foreignAssemblyTarget .. => "ForeignAssemblyTarget"
  | malformedRecords .. => "MalformedRecords"
  | bufferSizeMismatch .. => "BufferSizeMismatch"
  | commError .. => "CommError"

def message : VectorError → String
  | invalidGlobalId id globalSize =>
    s!"invalid global id {id}: global ids must be in [0, {globalSize})"
  | invalidLocalId index length =>
    s!"invalid local index {index}: expected [0, {length})"
  | lengthMismatch what expected got =>
    s!"{what}: expected length {expected}, got {got}"
  | rangeOutOfBounds what offset stop length =>
    s!"{what}: range {offset}..{stop} out of bounds for length {length}"
  | invalidRank rank size =>
    s!"rank {rank} is not in a process group of size {size}"
  | communicatorMismatch expected got =>
    s!"communicator mismatch: built for {expected.description}, called with {got.description}"
  | globalSizeMismatch declared computed =>
    s!"global size mismatch: declared {declared}, local sizes sum to {computed}"
  | incompatibleLayout leftLocal rightLocal leftGlobal rightGlobal =>
    s!"incompatible vector layouts: local {leftLocal} vs {rightLocal}, " ++
    s!"global {leftGlobal} vs {rightGlobal}"
  | invalidExtents reason => s!"invalid ownership extents: {reason}"
  | sizeOverflow => "global size overflow while summing local sizes"
  | ghostIdLocallyOwned id rank => s!"ghost id {id} is locally owned by rank {rank}"
  | duplicateGhostId id =>
    s!"ghost id {id} appears more than once in the ghost index set"
  | unknownGhostId id => s!"ghost id {id} does not belong to this communicator"
  | peerFailed rank operation failedRanks _ =>
    s!"rank {rank}: {operation} failed on rank(s) {bracketed (failedRanks.map toString)}"
  | mixedOperationModes rank attempted pendingMode pending =>
    s!"rank {rank}: cannot queue a {attempted.text} operation while " ++
    s!"{pending} {pendingMode.text} operation(s) are pending"
  | modeMismatch rank localMode globalMode offenders =>
    let list := bracketed (offenders.map fun (r, mode) => s!"({r}, {mode.text})")
    s!"rank {rank}: assembly mode mismatch, local {localMode.text} " ++
    s!"vs global {globalMode.text}; offending ranks {list}"
  | foreignGhostRequest rank requester id start stop =>
    s!"rank {rank}: rank {requester} requested global id {id}, " ++
    s!"which is not locally owned ({start}..{stop})"
  | foreignAssemblyTarget rank source id start stop =>
    s!"rank {rank}: rank {source} sent an assembly operation for global id {id}, " ++
    s!"which is not locally owned ({start}..{stop})"
  | malformedRecords rank source length recordSize =>
    s!"rank {rank}: received {length} bytes from rank {source}, " ++
    s!"not a multiple of the {recordSize}-byte record size"
  | bufferSizeMismatch neighbor expected got =>
    s!"buffer size mismatch with rank {neighbor}: expected {expected} bytes, got {got}"
  | commError neighbor message =>
    s!"communication error with rank {neighbor}: {message}"

end VectorError

/-- What an operation leaves behind, whether it succeeded or not. -/
structure Attempt (σ : Type) where
  state : σ
  outcome : Except VectorError Unit

end HaloVector
