import HaloVector.Assembly
import HaloVector.Layout
import HaloVector.Scalar.Decimal

/-!
# Shards

One rank's part of a vector that is spread over a group: the entries whose global ids
the rank owns, and the queue of updates for entries of any rank. Owned entries are
read and written at once, by local index. Every other write is queued, and done by
the next assembly.

A shard that an operation refuses to change is returned by none: such operations
answer with the new shard or an error.
-/

namespace HaloVector

structure Shard where
  topology : Topology
  extents : Extents
  /-- The owned entries, by local index. -/
  values : List Scalar
  queue : OpQueue
  tags : VectorTags
deriving DecidableEq

namespace Shard

/-! ## Construction -/

/-- A zero shard of one rank. -/
def zeroed (topology : Topology) (extents : Extents) (tags : VectorTags) : Shard :=
  let size := match extents.localSize topology.rank with
    | .ok size => size
    | .error _ => 0
  ⟨topology, extents, List.replicate size .zero, .empty, tags⟩

/-- A zero shard over known extents. -/
def ofExtents (c : Communicator) (extents : Extents) (tags : VectorTags) :
    Except VectorError Shard := do
  extents.checkNumRanks c.topology.size
  pure (zeroed c.topology extents tags)

/-- A zero shard on every rank of the group. -/
def create (c : Communicator) (localSize globalSize : UInt64) (tags : VectorTags) :
    Collective Shard := do
  let extents ← Extents.buildDeclared c localSize globalSize "vector construction"
  Collective.ofExcept (ofExtents c extents tags)

/-- What holds of every shard: the rank is one of those of the extents, and there is
a value for each id of its range. -/
def WellFormed (s : Shard) : Prop :=
  s.extents.numRanks = s.topology.size ∧
    s.extents.localSize s.topology.rank = .ok s.values.length

theorem wellFormed_zeroed {topology : Topology} {extents : Extents} {tags : VectorTags}
    (matching : extents.numRanks = topology.size) (member : topology.IsMember) :
    (zeroed topology extents tags).WellFormed := by
  refine ⟨matching, ?_⟩
  have inside : topology.rank < extents.ranges.length := by
    rw [extents.length_ranges, matching]
    exact member
  simp [zeroed, Extents.localSize, Extents.range, List.getElem?_eq_getElem inside, Except.map]

/-! ## Reading -/

/-- How many entries the rank owns. -/
def localSize (s : Shard) : Nat := s.values.length

def globalSize (s : Shard) : UInt64 := s.extents.globalSize

/-- The ids of the owned entries. -/
def ownedRange (s : Shard) : IdRange :=
  match s.extents.range s.topology.rank with
  | .ok range => range
  | .error _ => ⟨0, 0⟩

def get? (s : Shard) (index : Nat) : Option Scalar := s.values[index]?

/-- An owned entry, or the error for an index out of range. -/
def get (s : Shard) (index : Nat) : Except VectorError Scalar :=
  match s.get? index with
  | some value => .ok value
  | none => .error (.invalidLocalId index s.localSize)

def text (s : Shard) : String :=
  "[" ++ " ".intercalate (s.values.map Scalar.text) ++ "]"

/-! ## Writing -/

/-- The shard with another entry at an index, if there is such an index. -/
def set? (s : Shard) (index : Nat) (value : Scalar) : Option Shard :=
  if index < s.localSize then some { s with values := s.values.set index value } else none

/-- The same, with an error for an index out of range. -/
def set (s : Shard) (index : Nat) (value : Scalar) : Except VectorError Shard :=
  match s.set? index value with
  | some changed => .ok changed
  | none => .error (.invalidLocalId index s.localSize)

/-- Makes all owned entries one value. -/
def fill (s : Shard) (value : Scalar) : Shard :=
  { s with values := s.values.map fun _ => value }

/-- Replaces all owned entries. -/
def setValues (s : Shard) (values : List Scalar) : Except VectorError Shard :=
  if values.length = s.localSize then .ok { s with values }
  else .error (.lengthMismatch "local values" s.localSize values.length)

/-- Replaces the owned entries from `offset` on. -/
def setBlock (s : Shard) (offset : Nat) (values : List Scalar) : Except VectorError Shard := do
  checkBlock "block set" offset values.length s.localSize
  pure { s with values := writeAt s.values offset values }

/-- Replaces a block of owned entries by a block of another shard. -/
def copyBlock (s source : Shard) (sourceOffset offset count : Nat) :
    Except VectorError Shard := do
  checkBlock "block copy source" sourceOffset count source.localSize
  checkBlock "block copy destination" offset count s.localSize
  pure { s with values := writeAt s.values offset (slice source.values sourceOffset count) }

/-! ## Copies -/

/-- The same entries with nothing queued. -/
def copy (s : Shard) : Shard := { s with queue := .empty }

/-- The same layout with zero entries and nothing queued. -/
def blank (s : Shard) : Shard := { s.fill .zero with queue := .empty }

end Shard
end HaloVector
