import HaloVector.Program

/-!
# Communicators

What a rank knows of the group it talks to. A communicator is only an identity:
which messages are delivered is decided where programs are run.
-/

namespace HaloVector

structure Communicator where
  rank : Nat
  size : Nat
  /-- There is no transport at all. -/
  alone : Bool
deriving DecidableEq, Repr

namespace Communicator

/-- The communicator of a program that is not part of any group. -/
def single : Communicator := ⟨0, 1, true⟩

def member (rank size : Nat) : Communicator := ⟨rank, size, false⟩

/-- The rank and size as a topology, or the serial one if there is no such rank. -/
def topology (c : Communicator) : Topology :=
  if c.rank < c.size then ⟨c.rank, c.size⟩ else .serial

/-- Takes down the whole group. Without a transport there is only the process to end, and
all that is said about it is a log line. -/
def abort {α : Type} (c : Communicator) (code : Nat) : Program α :=
  if c.alone then
    .log .error s!"rank {c.rank} aborting with code {code}" (.halt .processEnded)
  else .halt (.abort c.rank c.size code)

theorem isMember_topology (c : Communicator) : c.topology.IsMember := by
  unfold topology
  split
  · assumption
  · exact Topology.isMember_serial

theorem topology_member {rank size : Nat} (inside : rank < size) :
    (member rank size).topology = ⟨rank, size⟩ := if_pos inside

end Communicator

/-- Refuses a communicator of another topology than `expected`. -/
def Communicator.check (c : Communicator) (expected : Topology) : Except VectorError Unit :=
  if c.topology = expected then .ok ()
  else .error (.communicatorMismatch expected c.topology)

end HaloVector
