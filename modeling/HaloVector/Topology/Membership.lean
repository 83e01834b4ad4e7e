import HaloVector.VectorError

/-!
# Members of a group

Checks that a rank belongs to a group, as errors.
-/

namespace HaloVector.Topology

/-- The topology of a rank that belongs to its group. -/
def create (rank size : Nat) : Except VectorError Topology :=
  if rank < size then .ok ⟨rank, size⟩ else .error (.invalidRank rank size)

/-- Refuses a rank outside the group. -/
def checkRank (t : Topology) (rank : Nat) : Except VectorError Unit :=
  if rank < t.size then .ok () else .error (.invalidRank rank t.size)

theorem create_eq_ok_iff {rank size : Nat} {t : Topology} :
    create rank size = .ok t ↔ t = ⟨rank, size⟩ ∧ t.IsMember := by
  unfold create
  split
  · constructor
    · intro made
      cases made
      exact ⟨rfl, ‹_›⟩
    · rintro ⟨rfl, _⟩
      rfl
  · rename_i outside
    constructor
    · intro made
      cases made
    · rintro ⟨rfl, inside⟩
      exact absurd inside outside

end HaloVector.Topology
