import HaloVector.Extents
import HaloVector.Agreement

/-!
# Extents of a group

Extents are laid out once, from the local size of every rank, so all ranks of a
group come to the same extents.
-/

namespace HaloVector.Extents

/-- Lays out the ranges of all ranks. -/
def build (c : Communicator) (localSize : UInt64) : Collective Extents := do
  let sizes ← gather c localSize
  let extents ← Collective.ofExcept (ofSizes sizes)
  Collective.log .debug <|
    s!"rank {c.rank}: built extents over {extents.numRanks} ranks, " ++
    s!"global size {extents.globalSize}"
  pure extents

/-- Refuses a declared global size that is not that of the extents. -/
def checkGlobalSize (e : Extents) (declared : UInt64) : Except VectorError Unit :=
  if e.globalSize = declared then .ok ()
  else .error (.globalSizeMismatch declared e.globalSize)

/-- Refuses extents of another number of ranks. -/
def checkNumRanks (e : Extents) (size : Nat) : Except VectorError Unit :=
  if e.numRanks = size then .ok ()
  else .error (.lengthMismatch "extents rank count" size e.numRanks)

/-- Lays out the ranges of all ranks, and compares the whole with what every rank
declares. -/
def buildDeclared (c : Communicator) (localSize globalSize : UInt64) (operation : String) :
    Collective Extents := do
  let extents ← build c localSize
  agreeOnOutcome c (extents.checkGlobalSize globalSize) operation
  pure extents

end HaloVector.Extents
