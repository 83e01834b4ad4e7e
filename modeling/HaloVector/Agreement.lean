import HaloVector.Exchange

/-!
# Agreement

Operations through which all ranks of a group come to know the same. Every rank
contributes, and every rank gets the contributions of all, in rank order.

`agreeOnOutcome` makes the outcome of a local check known to the group: either all
ranks go on, or all stop with an error, so that nobody enters the next exchange
alone.
-/

namespace HaloVector

/-! ## Gathering -/

/-- Writes the contributions of all ranks into a buffer, one after the other. -/
def allgather (c : Communicator) (contribution : Bytes) (buffer : Bytes) :
    Program (Attempt Bytes) :=
  let layout := Layout.uniform c.size contribution.length
  let sent := (List.replicate c.size contribution).flatten
  exchangeBytes c sent layout buffer layout .allgather

/-- The value of every rank. -/
def gather {α : Type} [Cell α] (c : Communicator) (value : α) : Collective (List α) := do
  let blank := List.replicate (c.size * Cell.width α) 0
  let received ← .ofAttempt (allgather c (Cell.encode value) blank)
  pure (Cell.decodeAll c.size received)

/-- Returns when every rank has come here. -/
def barrier (c : Communicator) : Collective Unit := do
  discard <| Collective.ofAttempt (allgather c [0] (List.replicate c.size 0))

/-! ## Reducing -/

inductive Reduction
  | sum
  | max
deriving DecidableEq, Repr

/-- Combines values from left to right. -/
def Reduction.fold : Reduction → List Scalar → Scalar
  | sum, values => Scalar.sum values
  | max, values => Scalar.maximum .negInfinity values

/-- Combines the values of all ranks in rank order, so that all get the same bits. -/
def reduce (c : Communicator) (value : Scalar) (how : Reduction) : Collective Scalar := do
  let values ← gather c value
  pure (how.fold values)

/-! ## Outcomes -/

/-- The byte that tells the group how a local check went. -/
def statusCode {α : Type} : Except VectorError α → UInt8
  | .ok _ => 0
  | .error e => if e.isFatal then 2 else 1

/-- The ranks that report failure. -/
def failedRanks (statuses : List UInt8) : List Nat :=
  (List.range statuses.length).filter fun rank => statuses[rank]? ≠ some 0

/-- The class of a failure that some ranks report: the worst of theirs. -/
def worstClass (statuses : List UInt8) : ErrorClass :=
  if statuses.contains 2 then .protocol else .invalidArgument

/-- Makes the outcome of a local check that of the group. A rank that failed keeps its
own error; any other rank learns which ranks failed. -/
def agreeOnOutcome {α : Type} (c : Communicator) (outcome : Except VectorError α)
    (operation : String) : Collective α := do
  let statuses ← gather c (statusCode outcome)
  let failed := failedRanks statuses
  match outcome with
  | .error e => throw e
  | .ok value =>
    if failed.isEmpty then pure value
    else
      let severity := worstClass statuses
      let names := bracketed (failed.map toString)
      Collective.log .debug
        s!"rank {c.rank}: {operation} failed on rank(s) {names} ({severity.text})"
      throw (.peerFailed c.rank operation failed severity)

/-- Takes the whole group down if the outcome is a fatal error. -/
def orAbort {α : Type} (c : Communicator) (outcome : Except VectorError α)
    (operation : String) : Collective α := do
  if let .error e := outcome then
    if e.isFatal then
      Collective.log .error
        s!"rank {c.rank} of {c.size}: fatal error in {operation}: {e.message}"
      ExceptT.lift (c.abort 1)
  Collective.ofExcept outcome

end HaloVector
