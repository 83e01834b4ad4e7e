import HaloVector.Exchange

/-!
# Exchanging counts

Before parts of unknown size travel, every rank tells every other how much is to
come. Each rank sends one count to each rank, zero or not, so that nobody has to
guess who will write.
-/

namespace HaloVector

/-- Sends `counts[r]` to every rank `r`, and returns what each rank sent here. -/
def exchangeCounts (c : Communicator) (counts : List Nat) (tag : Tag) :
    Collective (List Nat) := do
  if counts.length ≠ c.size then
    throw (.lengthMismatch "send counts" c.size counts.length)
  let each := Layout.uniform c.size 1
  let received ← exchange c (counts.map UInt64.ofNat) each each tag
  pure (received.map UInt64.toNat)

end HaloVector
