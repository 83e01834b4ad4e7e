import Mathlib.Data.List.Chain
import Mathlib.Tactic.TFAE
import HaloVector.Form
import HaloVector.Proofs.Ownership

/-!
# Sizes and bounds

Extents can be made from the sizes of all ranges or from their bounds. Both ways lead to all
extents there are, and each of them can be taken back.

* `Extents.sizes` are the sizes of the ranges, and `Extents.ofSizes_eq_ok_iff` says that extents
  are made of these sizes and no others. `Extents.ofBounds_eq_ok_iff` says the same of bounds.
* `Extents.runningEnds_eq_none_iff`: one of the running sums leaves the machine word exactly if
  the whole sum does.
* `Extents.firstDecrease?_eq_some_iff`: bounds are refused for the first rank at which they
  decrease.
* `Extents.extents_are_prefix_sums` is the whole of it.
-/

namespace HaloVector.Extents

/-! ## Running sums -/

section sums

variable {start : UInt64} {sizes ends : List UInt64}

theorem toNat_add_of_fits {size : UInt64} (fits : start.toNat + size.toNat < idLimit) :
    (start + size).toNat = start.toNat + size.toNat :=
  (UInt64.toNat_add start size).trans (Nat.mod_eq_of_lt fits)

/-- The sum fits at every step exactly if it does at the end, because it never gets less. -/
theorem runningEnds_eq_none_iff :
    runningEnds start sizes = none ↔
      idLimit ≤ start.toNat + totalCount (sizes.map UInt64.toNat) := by
  induction sizes generalizing start with
  | nil => exact ⟨nofun, fun beyond => absurd beyond (Nat.not_le.2 start.toNat_lt)⟩
  | cons size rest ih =>
    rw [runningEnds, List.map_cons, totalCount, ← Nat.add_assoc]
    split
    · rename_i fits
      rw [Option.map_eq_none_iff, ih, toNat_add_of_fits fits]
    · rename_i beyond
      rw [Nat.not_lt] at beyond
      exact iff_of_true rfl (Nat.le_add_right_of_le beyond)

/-- Each end is the sum of all sizes up to its own. -/
theorem toNat_getD_runningEnds (laid : runningEnds start sizes = some ends) {rank : Nat}
    (inside : rank < sizes.length) :
    (ends.getD rank 0).toNat =
      start.toNat + totalCount ((sizes.take (rank + 1)).map UInt64.toNat) := by
  induction sizes generalizing start ends rank with
  | nil => cases inside
  | cons size rest ih =>
    rw [runningEnds] at laid
    split at laid
    · rename_i fits
      obtain ⟨later, rest_laid, rfl⟩ := Option.map_eq_some_iff.1 laid
      rw [List.take_succ_cons, List.map_cons, totalCount, ← Nat.add_assoc,
        ← toNat_add_of_fits fits]
      cases rank with
      | zero => rfl
      | succ rank => exact ih rest_laid (Nat.lt_of_succ_lt_succ inside)
    · cases laid

/-- The sizes of ranges that follow each other from a start on and have these ends. -/
def sizesFrom (start : UInt64) : List UInt64 → List UInt64
  | [] => []
  | stop :: rest => (stop - start) :: sizesFrom stop rest

@[simp] theorem length_sizesFrom : (sizesFrom start ends).length = ends.length := by
  induction ends generalizing start with
  | nil => rfl
  | cons stop rest ih => exact congrArg (· + 1) ih

theorem sizesFrom_runningEnds (laid : runningEnds start sizes = some ends) :
    sizesFrom start ends = sizes := by
  induction sizes generalizing start ends with
  | nil =>
    cases laid
    rfl
  | cons size rest ih =>
    rw [runningEnds] at laid
    split at laid
    · obtain ⟨later, rest_laid, rfl⟩ := Option.map_eq_some_iff.1 laid
      rw [sizesFrom, ih rest_laid, UInt64.add_comm, UInt64.add_sub_cancel]
    · cases laid

theorem runningEnds_sizesFrom (ascending : (start :: ends).Pairwise (· ≤ ·)) :
    runningEnds start (sizesFrom start ends) = some ends := by
  induction ends generalizing start with
  | nil => rfl
  | cons stop rest ih =>
    have up : start ≤ stop := List.rel_of_pairwise_cons ascending List.mem_cons_self
    have back : start + (stop - start) = stop := by
      rw [UInt64.add_comm, UInt64.sub_add_cancel]
    have fits : start.toNat + (stop - start).toNat < idLimit := by
      rw [UInt64.toNat_sub_of_le _ _ up, Nat.add_sub_of_le (UInt64.le_iff_toNat_le.1 up)]
      exact stop.toNat_lt
    rw [sizesFrom, runningEnds, if_pos fits, back, ih ascending.of_cons]
    rfl

theorem getElem?_sizesFrom {rank : Nat} (inside : rank < ends.length) :
    (sizesFrom start ends)[rank]? =
      some (ends.getD rank 0 - (start :: ends).getD rank 0) := by
  induction ends generalizing start rank with
  | nil => cases inside
  | cons stop rest ih =>
    cases rank with
    | zero => rfl
    | succ rank => exact ih (Nat.lt_of_succ_lt_succ inside)

end sums

/-! ## Sizes -/

/-- The sizes of the ranges of all ranks. -/
def sizes (e : Extents) : List UInt64 := sizesFrom 0 e.ends

section sizes

variable {e : Extents} {sizes : List UInt64} {rank : Nat}

theorem length_sizes (e : Extents) : e.sizes.length = e.numRanks := length_sizesFrom

theorem pairwise_bounds (e : Extents) : e.bounds.Pairwise (· ≤ ·) :=
  .cons (fun _ _ => UInt64.zero_le) e.ends_ascending

/-- Extents are made of the sizes that their ranges have, and of no others. -/
theorem ofSizes_eq_ok_iff : ofSizes sizes = .ok e ↔ e.sizes = sizes := by
  constructor
  · intro made
    unfold ofSizes at made
    split at made
    · cases made
    · split at made
      · cases made
      · rename_i laid
        cases made
        exact sizesFrom_runningEnds laid
  · rintro rfl
    have laid : runningEnds 0 e.sizes = some e.ends := runningEnds_sizesFrom e.pairwise_bounds
    have inhabited : e.sizes ≠ [] := by
      rw [← List.length_pos_iff, length_sizes]
      exact e.numRanks_pos
    unfold ofSizes
    rw [dif_neg inhabited]
    split
    · rename_i failed
      cases failed.symm.trans laid
    · rename_i placed
      cases placed.symm.trans laid
      rfl

theorem localSize_eq_of_sizes {size : UInt64} (found : e.sizes[rank]? = some size) :
    e.localSize rank = .ok size.toNat := by
  have inside : rank < e.numRanks := by
    rw [← length_sizes]
    exact (List.getElem?_eq_some_iff.1 found).1
  rw [sizes, getElem?_sizesFrom inside] at found
  cases found
  rw [localSize, range_eq inside]
  rfl

/-- Each range ends after the ids of all ranks up to its own. -/
theorem toNat_getD_ends (inside : rank < e.numRanks) :
    (e.ends.getD rank 0).toNat = totalCount ((e.sizes.take (rank + 1)).map UInt64.toNat) :=
  (toNat_getD_runningEnds (runningEnds_sizesFrom e.pairwise_bounds)
    (Nat.lt_of_lt_of_eq inside (length_sizes e).symm)).trans (Nat.zero_add _)

/-- All ids together are as many as the ranges hold. -/
theorem toNat_globalSize_eq (e : Extents) :
    e.globalSize.toNat = totalCount (e.sizes.map UInt64.toNat) := by
  have last : e.numRanks - 1 < e.numRanks := Nat.sub_one_lt (Nat.ne_of_gt e.numRanks_pos)
  rw [globalSize_eq, toNat_getD_ends last, Nat.sub_add_cancel e.numRanks_pos, ← length_sizes,
    List.take_length]

theorem ofSizes_of_beyond (populated : sizes ≠ [])
    (beyond : idLimit ≤ totalCount (sizes.map UInt64.toNat)) :
    ofSizes sizes = .error .sizeOverflow := by
  have failed : runningEnds 0 sizes = none :=
    runningEnds_eq_none_iff.2 (Nat.le_trans beyond (Nat.le_add_left _ _))
  unfold ofSizes
  rw [dif_neg populated]
  split
  · rfl
  · rename_i laid
    cases failed.symm.trans laid

theorem exists_ofSizes_of_fits (populated : sizes ≠ [])
    (fits : totalCount (sizes.map UInt64.toNat) < idLimit) : ∃ e, ofSizes sizes = .ok e := by
  unfold ofSizes
  rw [dif_neg populated]
  split
  · rename_i failed
    have beyond := runningEnds_eq_none_iff.1 failed
    exact absurd (Nat.le_trans beyond (Nat.le_of_eq (Nat.zero_add _))) (Nat.not_le.2 fits)
  · exact ⟨_, rfl⟩

/-- What laying out ranges of the given sizes comes to. -/
inductive Laid (sizes : List UInt64) : Except VectorError Extents → Prop
  | nobody (none_given : sizes = []) :
    Laid sizes (.error (.invalidExtents "at least one rank is required"))
  | beyond (populated : sizes ≠ []) (wide : idLimit ≤ totalCount (sizes.map UInt64.toNat)) :
    Laid sizes (.error .sizeOverflow)
  | laid {e : Extents} (populated : sizes ≠ [])
    (fits : totalCount (sizes.map UInt64.toNat) < idLimit) (valid : defect? e.bounds = none)
    (numRanks : e.numRanks = sizes.length)
    (localSize : ∀ rank size, sizes[rank]? = some size → e.localSize rank = .ok size.toNat)
    (globalSize : e.globalSize.toNat = totalCount (sizes.map UInt64.toNat)) :
    Laid sizes (.ok e)

theorem laid_ofSizes (sizes : List UInt64) : Laid sizes (ofSizes sizes) := by
  by_cases populated : sizes = []
  · subst populated
    exact .nobody rfl
  rcases Nat.lt_or_ge (totalCount (sizes.map UInt64.toNat)) idLimit with fits | wide
  · obtain ⟨e, made⟩ := exists_ofSizes_of_fits populated fits
    have same := ofSizes_eq_ok_iff.1 made
    rw [made]
    subst same
    exact .laid populated fits e.defect?_bounds (length_sizes e).symm
      (fun _ _ => localSize_eq_of_sizes) e.toNat_globalSize_eq
  · rw [ofSizes_of_beyond populated wide]
    exact .beyond populated wide

end sizes

/-! ## Bounds -/

section bounds

variable {e : Extents} {bounds : List UInt64}

/-- Bounds that begin with zero, with those of at least one rank after it, and never decrease. -/
structure Bounding (bounds : List UInt64) : Prop where
  enough : 2 ≤ bounds.length
  first : bounds.head? = some 0
  ascending : bounds.IsChain (· ≤ ·)

theorem isChain_iff_pairwise_le : bounds.IsChain (· ≤ ·) ↔ bounds.Pairwise (· ≤ ·) :=
  haveI : Trans (α := UInt64) (· ≤ ·) (· ≤ ·) (· ≤ ·) := ⟨UInt64.le_trans⟩
  List.isChain_iff_pairwise

theorem defect?_eq_none_iff_bounding : defect? bounds = none ↔ Bounding bounds := by
  rw [defect?_eq_none_iff]
  constructor
  · rintro ⟨ends, rfl, inhabited, ascending⟩
    refine ⟨Nat.succ_le_succ (List.length_pos_iff.2 inhabited), rfl, ?_⟩
    exact isChain_iff_pairwise_le.2 (.cons (fun _ _ => UInt64.zero_le) ascending)
  · rintro ⟨enough, first, ascending⟩
    obtain ⟨ends, rfl⟩ := List.head?_eq_some_iff.1 first
    refine ⟨ends, rfl, ?_, (isChain_iff_pairwise_le.1 ascending).of_cons⟩
    exact List.length_pos_iff.1 (Nat.le_of_succ_le_succ enough)

/-- Bounds are accepted for what they are. -/
theorem ofBounds_eq_ok_iff : ofBounds bounds = .ok e ↔ e.bounds = bounds := by
  constructor
  · intro made
    unfold ofBounds at made
    split at made
    · cases made
    · rename_i faultless
      obtain ⟨ends, rfl, -⟩ := defect?_eq_none_iff.1 faultless
      cases made
      rfl
  · rintro rfl
    unfold ofBounds
    split
    · rename_i faulty
      cases e.defect?_bounds.symm.trans faulty
    · rfl

theorem ofBounds_of_defect {defect : Defect} (found : defect? bounds = some defect) :
    ofBounds bounds = .error (.invalidExtents defect.text) := by
  unfold ofBounds
  split
  · rename_i other
    cases found.symm.trans other
    rfl
  · rename_i faultless
    cases found.symm.trans faultless

/-- The first decrease is where a bound is below the one before it, and none is among those
before. -/
theorem firstDecrease?_eq_some_iff {rank : Nat} {defect : Defect} :
    firstDecrease? rank bounds = some defect ↔
      ∃ before start stop after, bounds = before ++ start :: stop :: after ∧
        (before ++ [start]).IsChain (· ≤ ·) ∧ stop < start ∧
        defect = .decrease (rank + before.length) start stop := by
  fun_induction firstDecrease? rank bounds with
  | case1 rank start stop rest down =>
    constructor
    · rintro ⟨⟩
      exact ⟨[], start, stop, rest, rfl, .singleton _, down, rfl⟩
    · rintro ⟨before, here, below, after, split, ascending, -, rfl⟩
      cases before with
      | nil =>
        cases split
        rfl
      | cons low before =>
        -- the decrease at the front would be among the ascending bounds before this one
        cases before <;> cases split <;>
          exact absurd down (UInt64.not_lt.2 (List.isChain_cons_cons.1 ascending).1)
  | case2 rank start stop rest up ih =>
    rw [ih]
    rw [UInt64.not_lt] at up
    constructor
    · rintro ⟨before, here, below, after, split, ascending, down, rfl⟩
      refine ⟨start :: before, here, below, after, congrArg (start :: ·) split, ?_, down, ?_⟩
      · cases before <;> cases split <;> exact List.isChain_cons_cons.2 ⟨up, ascending⟩
      · rw [List.length_cons, Nat.add_right_comm, Nat.add_assoc]
    · rintro ⟨before, here, below, after, split, ascending, down, rfl⟩
      cases before with
      | nil =>
        cases split
        exact absurd down (UInt64.not_lt.2 up)
      | cons low before =>
        obtain ⟨rfl, rest_split⟩ := List.cons.inj split
        refine ⟨before, here, below, after, rest_split, ascending.tail, down, ?_⟩
        rw [List.length_cons, Nat.add_right_comm, Nat.add_assoc]
  | case3 rank bounds short =>
    refine ⟨nofun, ?_⟩
    rintro ⟨before, start, stop, after, rfl, -⟩
    cases before with
    | nil => exact (short _ _ _ rfl).elim
    | cons low before => cases before <;> exact (short _ _ _ rfl).elim

/-- Bounds that begin as they should are refused where they first decrease. -/
theorem ofBounds_of_decrease {before after : List UInt64} {start stop : UInt64}
    (first : (before ++ start :: stop :: after).head? = some 0)
    (ascending : (before ++ [start]).IsChain (· ≤ ·)) (down : stop < start) :
    ofBounds (before ++ start :: stop :: after) =
      .error (.invalidExtents s!"bounds decrease at rank {before.length}: {start} > {stop}") := by
  have found : firstDecrease? 0 (before ++ start :: stop :: after) = _ :=
    firstDecrease?_eq_some_iff.2 ⟨before, start, stop, after, rfl, ascending, down,
      congrArg (Defect.decrease · start stop) (Nat.zero_add before.length).symm⟩
  refine ofBounds_of_defect (show defect? _ = some (.decrease before.length start stop) from ?_)
  cases before with
  | nil =>
    cases first
    exact found
  | cons low before =>
    cases first
    cases before <;> exact found

theorem exists_decrease (enough : 2 ≤ bounds.length) (first : bounds.head? = some 0)
    (refused : ¬bounds.IsChain (· ≤ ·)) :
    ∃ before start stop after, bounds = before ++ start :: stop :: after ∧
      (before ++ [start]).IsChain (· ≤ ·) ∧ stop < start := by
  match bounds, enough with
  | low :: next :: rest, _ =>
    cases first
    rw [isChain_iff_pairwise_le, ← @firstDecrease?_eq_none_iff 0] at refused
    obtain ⟨defect, found⟩ := Option.ne_none_iff_exists'.1 refused
    obtain ⟨before, start, stop, after, split, ascending, down, -⟩ :=
      firstDecrease?_eq_some_iff.1 found
    exact ⟨before, start, stop, after, split, ascending, down⟩

end bounds

/-! ## Stored bounds -/

/-- Bounds as they are stored. -/
def formOf (bounds : List UInt64) : Form := .list (bounds.map fun bound => .number bound.toNat)

theorem words?_formOf (bounds : List UInt64) :
    (formOf bounds).words? = some (bounds.map UInt64.toNat) := by
  unfold formOf Form.words?
  dsimp only
  induction bounds with
  | nil => rfl
  | cons bound rest ih =>
    have fits : (Form.number bound.toNat).word? = some bound.toNat := if_pos bound.toNat_lt
    rw [List.map_cons, List.mapM_cons, ih, fits]
    rfl

/-- Stored bounds are read by the same check. -/
theorem ofForm_formOf (bounds : List UInt64) :
    ofForm (formOf bounds) = (ofBounds bounds).mapError FormError.invalid := by
  have back : (bounds.map UInt64.toNat).map UInt64.ofNat = bounds := by
    rw [List.map_map]
    exact List.map_id'' (fun _ => UInt64.ofNat_toNat) bounds
  unfold ofForm
  rw [words?_formOf]
  dsimp only
  rw [back]
  cases ofBounds bounds <;> rfl

/-! ## Sizes and bounds together -/

/-- Laying out ranges succeeds unless there are none or they hold too many ids, and then gives
every rank the size that it was to have. Bounds are accepted exactly if some sizes have them, and
these sizes are found again. What is made of bounds has these bounds, also if they were stored.
Bounds that begin as they should are refused for the first rank at which they decrease. -/
theorem extents_are_prefix_sums :
    (∀ sizes, Laid sizes (ofSizes sizes)) ∧
    (∀ bounds, [∃ e, ofBounds bounds = .ok e,
      ∃ sizes e, ofSizes sizes = .ok e ∧ e.bounds = bounds, Bounding bounds].TFAE) ∧
    (∀ sizes bounds e, ofSizes sizes = .ok e → e.bounds = bounds →
      ofBounds bounds = .ok e ∧ e.numRanks = sizes.length ∧
        ∀ rank size, sizes[rank]? = some size → e.localSize rank = .ok size.toNat) ∧
    (∀ bounds e, ofBounds bounds = .ok e ↔ e.bounds = bounds) ∧
    (∀ bounds, ofForm (formOf bounds) = (ofBounds bounds).mapError FormError.invalid) ∧
    ∀ bounds : List UInt64, 2 ≤ bounds.length → bounds.head? = some 0 →
      ¬bounds.IsChain (· ≤ ·) →
      ∃ before start stop after, bounds = before ++ start :: stop :: after ∧
        (before ++ [start]).IsChain (· ≤ ·) ∧ stop < start ∧
        ofBounds bounds = .error (.invalidExtents
          s!"bounds decrease at rank {before.length}: {start} > {stop}") := by
  refine ⟨laid_ofSizes, fun bounds => ?_, fun sizes bounds e made same => ?_,
    fun _ _ => ofBounds_eq_ok_iff, ofForm_formOf, fun bounds enough first refused => ?_⟩
  · tfae_have 1 → 2 := fun ⟨e, made⟩ =>
      ⟨e.sizes, e, ofSizes_eq_ok_iff.2 rfl, ofBounds_eq_ok_iff.1 made⟩
    tfae_have 2 → 3 := fun ⟨_, e, _, same⟩ =>
      same ▸ defect?_eq_none_iff_bounding.1 e.defect?_bounds
    tfae_have 3 → 1 := fun bounding => by
      obtain ⟨ends, rfl, inhabited, ascending⟩ :=
        defect?_eq_none_iff.1 (defect?_eq_none_iff_bounding.2 bounding)
      exact ⟨⟨ends, inhabited, ascending⟩, ofBounds_eq_ok_iff.2 rfl⟩
    tfae_finish
  · cases ofSizes_eq_ok_iff.1 made
    exact ⟨ofBounds_eq_ok_iff.2 same, (length_sizes e).symm, fun _ _ => localSize_eq_of_sizes⟩
  · obtain ⟨before, start, stop, after, rfl, ascending, down⟩ :=
      exists_decrease enough first refused
    exact ⟨before, start, stop, after, rfl, ascending, down,
      ofBounds_of_decrease first ascending down⟩

theorem extents_are_prefix_sums_gap :
    (∃ e, ofSizes [0, 3, 0, 2] = .ok e ∧ ofBounds [0, 0, 3, 3, 5] = .ok e ∧
      ofForm (formOf [0, 0, 3, 3, 5]) = .ok e ∧
      e.localSize 1 = .ok 3 ∧ e.localSize 2 = .ok 0) ∧
    ∃ before start stop after, ([0, 4, 4, 2, 1] : List UInt64) = before ++ start :: stop :: after ∧
      (before ++ [start]).IsChain (· ≤ ·) ∧ stop < start ∧
      ofBounds [0, 4, 4, 2, 1] = .error (.invalidExtents
        s!"bounds decrease at rank {before.length}: {start} > {stop}") := by
  obtain ⟨-, -, recovered, -, stored, refused⟩ := extents_are_prefix_sums
  constructor
  · let e : Extents := ⟨[0, 3, 3, 5], by decide, by decide⟩
    have made : ofSizes [0, 3, 0, 2] = .ok e := rfl
    obtain ⟨again, -, each⟩ := recovered _ [0, 0, 3, 3, 5] e made rfl
    refine ⟨e, made, again, ?_, each 1 3 rfl, each 2 0 rfl⟩
    rw [stored, again]
    rfl
  · exact refused [0, 4, 4, 2, 1] (by decide) rfl (by decide)

end HaloVector.Extents
