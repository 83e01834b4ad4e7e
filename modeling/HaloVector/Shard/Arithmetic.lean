import HaloVector.Shard

/-!
# Arithmetic on shards

Sums, multiples and norms of vectors, entry by entry on every rank. Two vectors can be
combined if their shards have the same number of entries, of this rank and in all.

Of two NaNs a sum or product keeps the first, so the order of operands is part of each
operation: what is added comes before the entry, and a factor before the entry that it
multiplies. Only the multiple of another shard has its entry before the factor.
-/

namespace HaloVector

/-- How the size of a vector is measured. -/
inductive Norm
  /-- The sum of absolute values. -/
  | l1
  /-- The root of the sum of squares. -/
  | l2
  /-- The greatest absolute value. -/
  | lInf
deriving DecidableEq, Repr

namespace Shard

/-- Refuses a shard of another size, local or global. -/
def checkLayout (s other : Shard) : Except VectorError Unit :=
  if s.localSize = other.localSize ∧ s.globalSize = other.globalSize then .ok ()
  else
    .error (.incompatibleLayout s.localSize other.localSize s.globalSize other.globalSize)

/-- Combines every entry with that of another shard. -/
def combine (s other : Shard) (f : Scalar → Scalar → Scalar) : Except VectorError Shard := do
  s.checkLayout other
  pure { s with values := List.zipWith f s.values other.values }

/-- Replaces every entry by that of another shard. -/
def copyValues (s source : Shard) : Except VectorError Shard :=
  s.combine source fun _ y => y

/-- Adds a multiple of another shard, `a` times `y` to each `x`. -/
def addMultiple (s : Shard) (a : Scalar) (other : Shard) : Except VectorError Shard :=
  s.combine other fun x y => x.increase (y * a)

/-- Adds another shard. -/
def add (s other : Shard) : Except VectorError Shard := s.addMultiple .one other

/-- Multiplies, then adds another shard: `a * x + y`. -/
def scaleAdd (s : Shard) (a : Scalar) (other : Shard) : Except VectorError Shard :=
  s.combine other fun x y => a * x + y

/-- Multiplies every entry. -/
def scale (s : Shard) (a : Scalar) : Shard :=
  { s with values := s.values.map fun x => a * x }

/-- Adds to every entry. -/
def shift (s : Shard) (a : Scalar) : Shard :=
  { s with values := s.values.map fun x => x.increase a }

/-- The greatest absolute value of the owned entries. -/
def maxAbs (s : Shard) : Scalar := Scalar.maximum .zero (s.values.map Scalar.abs)

/-- The norm of the whole vector. -/
def norm (s : Shard) (c : Communicator) (which : Norm) : Collective Scalar := do
  Collective.ofExcept (c.check s.topology)
  match which with
  | .l1 => reduce c (Scalar.sum (s.values.map Scalar.abs)) .sum
  | .l2 => return (← reduce c (Scalar.sum (s.values.map fun x => x * x)) .sum).sqrt
  | .lInf => reduce c s.maxAbs .max

end Shard
end HaloVector
