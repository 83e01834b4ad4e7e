/-!
# Topology

The identity of one rank within a fixed group of ranks. The pair of numbers is
plain data: a topology read from a file may name a rank outside its group, and
`Topology.IsMember` says when it does not.
-/

namespace HaloVector

structure Topology where
  rank : Nat
  size : Nat
deriving DecidableEq, Repr

namespace Topology

/-- The rank belongs to the group. -/
def IsMember (t : Topology) : Prop := t.rank < t.size

instance (t : Topology) : Decidable t.IsMember := inferInstanceAs (Decidable (_ < _))

/-- The only rank of a group of one. -/
def serial : Topology := ⟨0, 1⟩

instance : Inhabited Topology := ⟨serial⟩

def isSerial (t : Topology) : Bool := t.size = 1

/-- Every rank of the group, in increasing order. -/
def ranks (t : Topology) : List Nat := List.range t.size

/-- Every other rank of the group, in increasing order. -/
def peers (t : Topology) : List Nat := t.ranks.filter (· != t.rank)

/-- Topologies are ordered by rank, then by size. -/
def order : Topology → Topology → Ordering :=
  compareLex (compareOn rank) (compareOn size)

def text (t : Topology) : String := s!"rank {t.rank}/{t.size}"

/-- The text of a topology with its field names. -/
def description (t : Topology) : String :=
  s!"ProcessTopology \x7b rank: {t.rank}, size: {t.size} \x7d"

@[simp] theorem mem_ranks {t : Topology} {r : Nat} : r ∈ t.ranks ↔ r < t.size := by
  simp [ranks]

@[simp] theorem mem_peers {t : Topology} {r : Nat} :
    r ∈ t.peers ↔ r < t.size ∧ r ≠ t.rank := by
  simp [peers]

theorem isMember_serial : serial.IsMember := by decide

end Topology
end HaloVector
