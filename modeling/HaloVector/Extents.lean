import HaloVector.VectorError

/-!
# Ownership extents

Which rank owns which global ids. Rank `r` owns one contiguous range of ids, and
the ranges follow each other by rank, so they are known from where each one ends.

* `Extents.ofSizes` lays ranges of given sizes one after the other.
* `Extents.ofBounds` accepts the bounds of such ranges, and nothing else.
* `Extents.findOwner` finds the one range that holds an id.
-/

namespace HaloVector

/-! ## Ranges of ids -/

/-- The ids from `start` up to, not including, `stop`. -/
structure IdRange where
  start : UInt64
  stop : UInt64
deriving DecidableEq, Repr

namespace IdRange

def contains (r : IdRange) (id : UInt64) : Bool := r.start ≤ id && id < r.stop

def length (r : IdRange) : Nat := (r.stop - r.start).toNat

/-- The place of an id in the range. -/
def offset (r : IdRange) (id : UInt64) : Nat := (id - r.start).toNat

theorem contains_iff {r : IdRange} {id : UInt64} :
    r.contains id = true ↔ r.start ≤ id ∧ id < r.stop := by
  simp [contains]

end IdRange

/-! ## Extents -/

/-- Where the range of each rank ends. The range of rank `0` starts at id `0`, that
of any other rank where its predecessor ends. -/
structure Extents where
  ends : List UInt64
  ends_ne_nil : ends ≠ []
  ends_ascending : ends.Pairwise (· ≤ ·)
deriving DecidableEq

namespace Extents

/-- The bounds of all ranges: `0`, then every end. -/
def bounds (e : Extents) : List UInt64 := 0 :: e.ends

def numRanks (e : Extents) : Nat := e.ends.length

def globalSize (e : Extents) : UInt64 := e.ends.getLast e.ends_ne_nil

/-- The range of every rank. -/
def ranges (e : Extents) : List IdRange := List.zipWith IdRange.mk e.bounds e.ends

/-- The ids that a rank owns. -/
def range (e : Extents) (rank : Nat) : Except VectorError IdRange :=
  match e.ranges[rank]? with
  | some range => .ok range
  | none => .error (.invalidRank rank e.numRanks)

/-- How many ids a rank owns. -/
def localSize (e : Extents) (rank : Nat) : Except VectorError Nat :=
  (e.range rank).map IdRange.length

/-- The rank that owns an id: the first whose range ends above it. -/
def findOwner (e : Extents) (id : UInt64) : Except VectorError Nat :=
  if e.globalSize ≤ id then .error (.invalidGlobalId id e.globalSize)
  else .ok (e.ends.findIdx (id < ·))

def isOwnedBy (e : Extents) (id : UInt64) (rank : Nat) : Bool :=
  e.ranges[rank]?.any (·.contains id)

/-- The place of an id among those of its owner. -/
def toLocal? (e : Extents) (id : UInt64) (rank : Nat) : Option Nat :=
  (e.ranges[rank]?.filter (·.contains id)).map (·.offset id)

@[simp] theorem length_ranges (e : Extents) : e.ranges.length = e.numRanks := by
  simp [ranges, bounds, numRanks]

theorem numRanks_pos (e : Extents) : 0 < e.numRanks :=
  List.length_pos_iff.2 e.ends_ne_nil

theorem range_eq_ok_iff {e : Extents} {rank : Nat} {range : IdRange} :
    e.range rank = .ok range ↔ e.ranges[rank]? = some range := by
  unfold Extents.range
  split <;> simp_all

/-! ## Extents from sizes -/

/-- The number of global ids that there can be. -/
def idLimit : Nat := 0x10000000000000000

/-- The ends of consecutive ranges of the given sizes, if none is beyond the last id. -/
def runningEnds (start : UInt64) : List UInt64 → Option (List UInt64)
  | [] => some []
  | size :: rest =>
    if start.toNat + size.toNat < idLimit then
      (runningEnds (start + size) rest).map ((start + size) :: ·)
    else none

theorem length_runningEnds {start : UInt64} {sizes ends : List UInt64}
    (laid : runningEnds start sizes = some ends) : ends.length = sizes.length := by
  induction sizes generalizing start ends with
  | nil => cases laid; rfl
  | cons size rest ih =>
    simp only [runningEnds] at laid
    split at laid
    · obtain ⟨tail, found, rfl⟩ := Option.map_eq_some_iff.1 laid
      simp [ih found]
    · cases laid

theorem runningEnds_bounded {start : UInt64} {sizes ends : List UInt64}
    (laid : runningEnds start sizes = some ends) : ∀ stop ∈ ends, start ≤ stop := by
  induction sizes generalizing start ends with
  | nil => cases laid; simp
  | cons size rest ih =>
    simp only [runningEnds] at laid
    split at laid
    · rename_i fits
      obtain ⟨tail, found, rfl⟩ := Option.map_eq_some_iff.1 laid
      have step : start ≤ start + size := by
        have exact_sum : (start + size).toNat = start.toNat + size.toNat :=
          (UInt64.toNat_add start size).trans (Nat.mod_eq_of_lt fits)
        rw [UInt64.le_iff_toNat_le, exact_sum]
        exact Nat.le_add_right _ _
      intro stop member
      rcases List.mem_cons.1 member with rfl | later
      · exact step
      · exact UInt64.le_trans step (ih found stop later)
    · cases laid

theorem runningEnds_ascending {start : UInt64} {sizes ends : List UInt64}
    (laid : runningEnds start sizes = some ends) : ends.Pairwise (· ≤ ·) := by
  induction sizes generalizing start ends with
  | nil => cases laid; exact .nil
  | cons size rest ih =>
    simp only [runningEnds] at laid
    split at laid
    · obtain ⟨tail, found, rfl⟩ := Option.map_eq_some_iff.1 laid
      exact .cons (runningEnds_bounded found) (ih found)
    · cases laid

/-- Extents of the given sizes, rank by rank. -/
def ofSizes (sizes : List UInt64) : Except VectorError Extents :=
  if inhabited : sizes = [] then .error (.invalidExtents "at least one rank is required")
  else
    match laid : runningEnds 0 sizes with
    | none => .error .sizeOverflow
    | some ends =>
      .ok {
        ends
        ends_ne_nil := by
          have same := length_runningEnds laid
          rintro rfl
          exact inhabited (List.eq_nil_of_length_eq_zero same.symm)
        ends_ascending := runningEnds_ascending laid }

/-! ## Extents from bounds -/

/-- Why a list is not the bounds of any extents. -/
inductive Defect
  | tooFew (count : Nat)
  | nonzeroStart (bound : UInt64)
  /-- The range of `rank` would end before it starts. -/
  | decrease (rank : Nat) (start stop : UInt64)
deriving DecidableEq, Repr

def Defect.text : Defect → String
  | tooFew count => s!"need at least 2 bounds, got {count}"
  | nonzeroStart bound => s!"first bound must be 0, got {bound}"
  | decrease rank start stop => s!"bounds decrease at rank {rank}: {start} > {stop}"

/-- The first place where bounds decrease, counting ranks from `rank`. -/
def firstDecrease? (rank : Nat) : List UInt64 → Option Defect
  | start :: stop :: rest =>
    if stop < start then some (.decrease rank start stop)
    else firstDecrease? (rank + 1) (stop :: rest)
  | _ => none

def defect? (bounds : List UInt64) : Option Defect :=
  match bounds with
  | [] | [_] => some (.tooFew bounds.length)
  | first :: _ => if first ≠ 0 then some (.nonzeroStart first) else firstDecrease? 0 bounds

theorem firstDecrease?_eq_none_iff {rank : Nat} {bounds : List UInt64} :
    firstDecrease? rank bounds = none ↔ bounds.Pairwise (· ≤ ·) := by
  induction bounds generalizing rank with
  | nil => simp [firstDecrease?]
  | cons start rest ih =>
    cases rest with
    | nil => simp [firstDecrease?]
    | cons stop tail =>
      simp only [firstDecrease?]
      split
      · rename_i down
        simp only [reduceCtorEq, false_iff]
        intro ascending
        have up := List.rel_of_pairwise_cons ascending List.mem_cons_self
        exact absurd down (UInt64.not_lt.2 up)
      · rename_i up
        rw [ih]
        constructor
        · intro ascending
          refine .cons ?_ ascending
          intro later member
          rcases List.mem_cons.1 member with rfl | inTail
          · exact UInt64.not_lt.1 up
          · exact UInt64.le_trans (UInt64.not_lt.1 up)
              (List.rel_of_pairwise_cons ascending inTail)
        · exact fun ascending => ascending.of_cons

/-- Bounds are without defect exactly if they are `0` and then, for at least one
rank, ends that do not decrease. -/
theorem defect?_eq_none_iff {bounds : List UInt64} :
    defect? bounds = none ↔
      ∃ ends, bounds = 0 :: ends ∧ ends ≠ [] ∧ ends.Pairwise (· ≤ ·) := by
  match bounds with
  | [] => simp [defect?]
  | [_] => simp [defect?]
  | first :: second :: rest =>
    simp only [defect?, ne_eq, ite_not]
    split
    · rename_i zero
      subst zero
      rw [firstDecrease?_eq_none_iff]
      constructor
      · exact fun ascending => ⟨second :: rest, rfl, by simp, ascending.of_cons⟩
      · rintro ⟨ends, same, _, ascending⟩
        rw [List.cons.inj same |>.2]
        exact .cons (fun _ _ => UInt64.zero_le) ascending
    · rename_i nonzero
      simp [nonzero]

/-- Extents with the given bounds. -/
def ofBounds (bounds : List UInt64) : Except VectorError Extents :=
  match found : defect? bounds with
  | some defect => .error (.invalidExtents defect.text)
  | none =>
    .ok {
      ends := bounds.tail
      ends_ne_nil := by
        obtain ⟨ends, rfl, inhabited, _⟩ := defect?_eq_none_iff.1 found
        exact inhabited
      ends_ascending := by
        obtain ⟨ends, rfl, _, ascending⟩ := defect?_eq_none_iff.1 found
        exact ascending }

/-- Every value of the type passes the check on bounds. -/
theorem defect?_bounds (e : Extents) : defect? e.bounds = none :=
  defect?_eq_none_iff.2 ⟨e.ends, rfl, e.ends_ne_nil, e.ends_ascending⟩

end Extents
end HaloVector
