/-!
# Scalars

The entries of a vector are 64-bit binary floating-point numbers. A `Scalar` is
the bit pattern, so that equality tells `-0.0` from `0.0` and one NaN from
another, and so that a value that only travels is never changed.

Sums, products and roots are computed by the machine. What needs no rounding
(`abs`, `max`, the test for NaN) is defined on the pattern itself:
* a pattern without its sign bit is its `magnitude`;
* magnitudes of numbers are ordered like the numbers, which gives `rank`;
* `max` prefers a number to a NaN and the greater `rank` to the smaller.
-/

namespace HaloVector

/-- A floating-point number, as its sign bit, exponent and fraction. -/
structure Scalar where
  bits : UInt64
deriving DecidableEq, Repr, Inhabited

namespace Scalar

/-! ## Patterns -/

def zero : Scalar := ⟨0⟩
def negZero : Scalar := ⟨0x8000000000000000⟩
def one : Scalar := ⟨0x3ff0000000000000⟩
def infinity : Scalar := ⟨0x7ff0000000000000⟩
def negInfinity : Scalar := ⟨0xfff0000000000000⟩

/-- The NaN that stands for "not a number" where no operand was one. -/
def nan : Scalar := ⟨0x7ff8000000000000⟩

/-- The NaN that an operation on numbers produces when it has no result. -/
def indefinite : Scalar := ⟨0xfff8000000000000⟩

/-- What the sign bit weighs in a pattern. -/
def signWeight : Nat := 0x8000000000000000

/-- Everything but the sign. -/
def magnitude (x : Scalar) : Nat := x.bits.toNat % signWeight

def isNegative (x : Scalar) : Bool := signWeight ≤ x.bits.toNat

def isNaN (x : Scalar) : Bool := infinity.magnitude < x.magnitude

/-- Clears the sign. -/
def abs (x : Scalar) : Scalar := ⟨UInt64.ofNat x.magnitude⟩

/-- Marks a NaN as one that raises no signal. -/
def quiet (x : Scalar) : Scalar := ⟨x.bits ||| 0x0008000000000000⟩

/-- The place of a number in the order of numbers; both zeros are at `0`. -/
def rank (x : Scalar) : Int :=
  if x.isNegative then -(x.magnitude : Int) else x.magnitude

/-- The greater of two scalars; a NaN loses against anything. -/
def max (x y : Scalar) : Scalar :=
  if x.isNaN then y
  else if y.isNaN then x
  else if x.rank < y.rank then y else x

/-! ## Arithmetic -/

def toFloat (x : Scalar) : Float := Float.ofBits x.bits

def ofFloat (x : Float) : Scalar := if x.isNaN then indefinite else ⟨x.toBits⟩

/-- Applies a machine operation; the first operand that is a NaN is the result. -/
def combine (op : Float → Float → Float) (x y : Scalar) : Scalar :=
  if x.isNaN then x.quiet
  else if y.isNaN then y.quiet
  else ofFloat (op x.toFloat y.toFloat)

protected def add : Scalar → Scalar → Scalar := combine (· + ·)
protected def mul : Scalar → Scalar → Scalar := combine (· * ·)

instance : Add Scalar := ⟨Scalar.add⟩
instance : Mul Scalar := ⟨Scalar.mul⟩

/-- Adds to a stored value. Of two NaNs the one that is added stays. -/
def increase (stored added : Scalar) : Scalar := added + stored

def sqrt (x : Scalar) : Scalar :=
  if x.isNaN then x.quiet else ofFloat x.toFloat.sqrt

/-- Adds from left to right. The sum of nothing is `-0.0`, the only scalar that
changes no summand. -/
def sum (xs : List Scalar) : Scalar := xs.foldl (· + ·) negZero

/-- The greatest entry, or `start` if none is greater. -/
def maximum (start : Scalar) (xs : List Scalar) : Scalar := xs.foldl max start

/-! ## Laws of magnitudes -/

theorem magnitude_lt (x : Scalar) : x.magnitude < signWeight :=
  Nat.mod_lt _ (by decide)

@[simp] theorem abs_toNat (x : Scalar) : x.abs.bits.toNat = x.magnitude := by
  have bound := x.magnitude_lt
  simp only [abs, UInt64.toNat_ofNat', signWeight] at *
  omega

@[simp] theorem magnitude_abs (x : Scalar) : x.abs.magnitude = x.magnitude := by
  rw [magnitude, abs_toNat, Nat.mod_eq_of_lt x.magnitude_lt]

@[simp] theorem isNegative_abs (x : Scalar) : x.abs.isNegative = false := by
  rw [isNegative, abs_toNat]
  exact decide_eq_false (Nat.not_le.2 x.magnitude_lt)

@[simp] theorem isNaN_abs (x : Scalar) : x.abs.isNaN = x.isNaN := by
  simp [isNaN]

theorem rank_abs (x : Scalar) : x.abs.rank = x.magnitude := by
  simp [rank]

example : zero.rank = negZero.rank := by decide
example : nan.isNaN ∧ indefinite.isNaN ∧ ¬ infinity.isNaN := by decide

end Scalar
end HaloVector
