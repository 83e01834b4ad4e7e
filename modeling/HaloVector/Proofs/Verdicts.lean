import Mathlib.Data.List.Sort
import HaloVector.Proofs.PlanDuality
import HaloVector.Proofs.PrefixSums
import HaloVector.Proofs.Snapshots

/-!
# Verdicts on a construction

Four things can be wrong when a group makes vectors or halos, and they are looked at in this
order: there are too many ids, a rank declares another global size than there is, a rank
wants an id as a ghost that it cannot have. What is found is said in terms of the sizes that
the ranks bring along (`idsBefore`), and not of the extents that are made of them.

* `Extents.LaidOut` says what extents the sizes come to.
* `ghostPlaces_verdict`: the ghost ids of a rank are all good, or it learns of the first one
  that is not.
* `Group.Refused` says how a group ends when some of its ranks have found a fault.
* `construction_verdicts` puts the parts together, for vectors and halos.
-/

namespace HaloVector

/-! ## Sizes -/

/-- How many ids the ranks before a rank have together. -/
def idsBefore (sizes : Nat → UInt64) (rank : Nat) : Nat :=
  totalCount ((List.range rank).map fun before => (sizes before).toNat)

theorem idsBefore_succ (sizes : Nat → UInt64) (rank : Nat) :
    idsBefore sizes (rank + 1) = idsBefore sizes rank + (sizes rank).toNat := by
  simp [idsBefore, List.range_succ, totalCount]

theorem idsBefore_mono (sizes : Nat → UInt64) {one other : Nat} (before : one ≤ other) :
    idsBefore sizes one ≤ idsBefore sizes other := by
  induction before with
  | refl => exact Nat.le_refl _
  | step _ ih =>
    rw [idsBefore_succ]
    omega

namespace Extents

/-- The extents are those of the sizes. -/
structure LaidOut (e : Extents) (size : Nat) (sizes : Nat → UInt64) : Prop where
  numRanks_eq : e.numRanks = size
  end_eq : ∀ rank < size, (e.ends.getD rank 0).toNat = idsBefore sizes (rank + 1)

variable {size : Nat} {sizes : Nat → UInt64}

theorem totalCount_map_range (sizes : Nat → UInt64) (size : Nat) :
    totalCount (((List.range size).map sizes).map UInt64.toNat) = idsBefore sizes size := by
  rw [List.map_map]
  rfl

theorem ofSizes_eq_overflow (populated : 0 < size) (beyond : idLimit ≤ idsBefore sizes size) :
    ofSizes ((List.range size).map sizes) = .error .sizeOverflow :=
  ofSizes_of_beyond (by simpa using Nat.ne_of_gt populated)
    ((totalCount_map_range sizes size).symm ▸ beyond)

theorem exists_ofSizes (populated : 0 < size) (fits : idsBefore sizes size < idLimit) :
    ∃ e, ofSizes ((List.range size).map sizes) = .ok e ∧ e.LaidOut size sizes := by
  obtain ⟨e, made⟩ := exists_ofSizes_of_fits (by simpa using Nat.ne_of_gt populated)
    ((totalCount_map_range sizes size).symm ▸ fits)
  have same := ofSizes_eq_ok_iff.1 made
  have ranks : e.numRanks = size := by
    rw [← length_sizes, same, List.length_map, List.length_range]
  refine ⟨e, made, ranks, fun rank inside => ?_⟩
  rw [toNat_getD_ends (ranks.symm ▸ inside), same, ← List.map_take, List.take_range,
    Nat.min_eq_left inside, totalCount_map_range]

namespace LaidOut

variable {e : Extents} (laid : e.LaidOut size sizes)

include laid

theorem toNat_globalSize : e.globalSize.toNat = idsBefore sizes size := by
  have populated := laid.numRanks_eq ▸ e.numRanks_pos
  rw [globalSize_eq, laid.numRanks_eq, laid.end_eq _ (by omega), Nat.sub_add_cancel populated]

theorem toNat_start {rank : Nat} (inside : rank < size) :
    (e.rangeAt rank).start.toNat = idsBefore sizes rank := by
  cases rank with
  | zero => rfl
  | succ rank => exact laid.end_eq rank (Nat.lt_of_succ_lt inside)

theorem localSize_eq {rank : Nat} (inside : rank < size) :
    ∃ range, e.range rank = .ok range ∧ range.length = (sizes rank).toNat := by
  refine ⟨_, range_eq (laid.numRanks_eq ▸ inside), ?_⟩
  have start := laid.toNat_start inside
  have stop : (e.rangeAt rank).stop.toNat = _ := laid.end_eq rank inside
  rw [idsBefore_succ] at stop
  rw [IdRange.length_eq (UInt64.le_iff_toNat_le.2 (by omega))]
  omega

theorem contains_iff {rank : Nat} (inside : rank < size) {id : UInt64} :
    (e.rangeAt rank).contains id ↔
      idsBefore sizes rank ≤ id.toNat ∧ id.toNat < idsBefore sizes (rank + 1) := by
  rw [IdRange.contains_iff, UInt64.le_iff_toNat_le, UInt64.lt_iff_toNat_lt,
    laid.toNat_start inside, ← laid.end_eq rank inside]
  rfl

end LaidOut

end Extents

/-! ## Ghost ids -/

section ghosts

variable (size : Nat) (sizes : Nat → UInt64) (rank : Nat)

/-- The id is one of those that the rank has itself. -/
def IsOwn (id : UInt64) : Prop :=
  idsBefore sizes rank ≤ id.toNat ∧ id.toNat < idsBefore sizes (rank + 1)

/-- Ids that the rank can have as ghosts. -/
structure Ghostable (ids : List UInt64) : Prop where
  known : ∀ id ∈ ids, id.toNat < idsBefore sizes size
  others : ∀ id ∈ ids, ¬ IsOwn sizes rank id
  distinct : ids.Nodup

/-- What is wrong with an id as a ghost of the rank that has some ids as ghosts already. -/
inductive GhostFault (before : List UInt64) (id : UInt64) : VectorError → Prop
  | unknown (beyond : idsBefore sizes size ≤ id.toNat) :
      GhostFault before id (.invalidGlobalId id (.ofNat (idsBefore sizes size)))
  | own (held : IsOwn sizes rank id) : GhostFault before id (.ghostIdLocallyOwned id rank)
  | repeated (earlier : id ∈ before) : GhostFault before id (.duplicateGhostId id)

/-- What is wrong with the first id of a list that the rank cannot have as a ghost. -/
def FirstFault (ids : List UInt64) (fault : VectorError) : Prop :=
  ∃ before id after, ids = before ++ id :: after ∧ Ghostable size sizes rank before ∧
    GhostFault size sizes rank before id fault

variable {size sizes rank} {ids before : List UInt64} {id : UInt64}

theorem IsOwn.lt (held : IsOwn sizes rank id) (inside : rank < size) :
    id.toNat < idsBefore sizes size :=
  Nat.lt_of_lt_of_le held.2 (idsBefore_mono sizes inside)

theorem ghostable_nil : Ghostable size sizes rank [] := ⟨nofun, nofun, List.nodup_nil⟩

theorem ghostable_append_singleton_iff : Ghostable size sizes rank (before ++ [id]) ↔
    Ghostable size sizes rank before ∧ ∀ fault, ¬ GhostFault size sizes rank before id fault := by
  constructor
  · rintro ⟨known, others, distinct⟩
    rw [List.forall_mem_append, List.forall_mem_singleton] at known others
    obtain ⟨unrepeated, -, apart⟩ := List.nodup_append.1 distinct
    refine ⟨⟨known.1, others.1, unrepeated⟩, ?_⟩
    rintro _ (beyond | held | earlier)
    · exact absurd known.2 (Nat.not_lt.2 beyond)
    · exact others.2 held
    · exact apart id earlier id (List.mem_singleton.2 rfl) rfl
  · rintro ⟨⟨known, others, distinct⟩, faultless⟩
    refine ⟨List.forall_mem_append.2 ⟨known, List.forall_mem_singleton.2 ?_⟩,
      List.forall_mem_append.2 ⟨others, List.forall_mem_singleton.2 ?_⟩, ?_⟩
    · exact Nat.not_le.1 fun beyond => faultless _ (.unknown beyond)
    · exact fun held => faultless _ (.own held)
    · refine List.nodup_append.2 ⟨distinct, List.nodup_singleton id, ?_⟩
      rintro other member _ same rfl
      exact faultless _ (.repeated (List.mem_singleton.1 same ▸ member))

theorem Ghostable.of_append {after : List UInt64}
    (good : Ghostable size sizes rank (before ++ after)) : Ghostable size sizes rank before where
  known id member := good.known id (List.mem_append_left after member)
  others id member := good.others id (List.mem_append_left after member)
  distinct := (List.nodup_append.1 good.distinct).1

/-- Only one thing is wrong with an id if the ids before it are good. -/
theorem GhostFault.unique (inside : rank < size) (good : Ghostable size sizes rank before)
    {one other : VectorError} (this : GhostFault size sizes rank before id one)
    (that : GhostFault size sizes rank before id other) : one = other := by
  have unknown_not_own : idsBefore sizes size ≤ id.toNat → ¬ IsOwn sizes rank id :=
    fun beyond held => absurd (held.lt inside) (Nat.not_lt.2 beyond)
  have unknown_not_repeated : idsBefore sizes size ≤ id.toNat → id ∉ before :=
    fun beyond earlier => absurd (good.known id earlier) (Nat.not_lt.2 beyond)
  cases this with
  | unknown beyond =>
    cases that with
    | unknown _ => rfl
    | own held => exact absurd held (unknown_not_own beyond)
    | repeated earlier => exact absurd earlier (unknown_not_repeated beyond)
  | own held =>
    cases that with
    | unknown beyond => exact absurd held (unknown_not_own beyond)
    | own _ => rfl
    | repeated earlier => exact absurd held (good.others id earlier)
  | repeated earlier =>
    cases that with
    | unknown beyond => exact absurd earlier (unknown_not_repeated beyond)
    | own held => exact absurd held (good.others id earlier)
    | repeated _ => rfl

theorem FirstFault.not_ghostable {fault : VectorError}
    (first : FirstFault size sizes rank ids fault) : ¬ Ghostable size sizes rank ids := by
  obtain ⟨before, id, after, rfl, -, wrong⟩ := first
  rw [List.append_cons]
  exact fun good => (ghostable_append_singleton_iff.1 good.of_append).2 _ wrong

theorem FirstFault.unique (inside : rank < size) {one other : VectorError}
    (this : FirstFault size sizes rank ids one) (that : FirstFault size sizes rank ids other) :
    one = other := by
  obtain ⟨before, id, after, rfl, good, wrong⟩ := this
  obtain ⟨before', id', after', same, good', wrong'⟩ := that
  -- the shorter of the two beginnings is part of the longer one, which is good
  rcases List.append_eq_append_iff.1 same with ⟨_ | ⟨_, between⟩, rfl, rest⟩ |
    ⟨_ | ⟨_, between⟩, rfl, rest⟩ <;> cases rest
  · rw [List.append_nil] at wrong'
    exact wrong.unique inside good wrong'
  · exact absurd good' (FirstFault.not_ghostable ⟨before, _, between, rfl, good, wrong⟩)
  · rw [List.append_nil] at wrong good
    exact wrong.unique inside good wrong'
  · exact absurd good (FirstFault.not_ghostable ⟨before', _, between, rfl, good', wrong'⟩)

/-! ## What a rank finds -/

/-- An id that another rank has is good unless it was seen before. -/
theorem ghostPlacesFrom_cons {e : Extents} {me : Nat} (known : id < e.globalSize)
    (other : e.ownerOf id ≠ me) (places : Std.ExtTreeMap UInt64 Nat) (place : Nat)
    (rest : List UInt64) :
    ghostPlacesFrom e me places place (id :: rest) =
      if places.contains id then .error (.duplicateGhostId id)
      else ghostPlacesFrom e me (places.insert id place) (place + 1) rest := by
  rw [ghostPlacesFrom, ghostOwner_eq known other]
  cases places.contains id <;> rfl

/-- Good ghost ids all get places. -/
theorem exists_ghostPlacesFrom {e : Extents} {me : Nat} {ids : List UInt64}
    (good : GoodGhosts me e ids) {before : Std.ExtTreeMap UInt64 Nat}
    (unseen : ∀ id ∈ ids, before.contains id = false) (place : Nat) :
    ∃ places, ghostPlacesFrom e me before place ids = .ok places := by
  induction ids generalizing before place with
  | nil => exact ⟨before, rfl⟩
  | cons id rest ih =>
    obtain ⟨new, later⟩ := List.forall_mem_cons.1 unseen
    obtain ⟨unrepeated, distinct⟩ := List.nodup_cons.1 good.distinct
    rw [ghostPlacesFrom_cons (good.known id List.mem_cons_self)
      (good.others id List.mem_cons_self), if_neg (Bool.eq_false_iff.1 new)]
    refine ih ⟨distinct, fun other member => good.known other (List.mem_cons_of_mem id member),
      fun other member => good.others other (List.mem_cons_of_mem id member)⟩
      (fun other member => ?_) (place + 1)
    have apart : id ≠ other := fun same => unrepeated (same ▸ member)
    simp [later other member, apart]

section found

variable {e : Extents} (laid : e.LaidOut size sizes) (inside : rank < size)

include laid

theorem lt_globalSize_iff : id < e.globalSize ↔ id.toNat < idsBefore sizes size := by
  rw [UInt64.lt_iff_toNat_lt, laid.toNat_globalSize]

theorem globalSize_eq_ofNat : e.globalSize = .ofNat (idsBefore sizes size) := by
  rw [← laid.toNat_globalSize, UInt64.ofNat_toNat]

include inside

theorem ownerOf_eq_iff (known : id < e.globalSize) : e.ownerOf id = rank ↔ IsOwn sizes rank id := by
  rw [IsOwn, ← laid.contains_iff inside,
    Extents.contains_rangeAt_iff (laid.numRanks_eq ▸ inside), Extents.findOwner_eq known,
    Except.ok.injEq]

theorem Ghostable.goodGhosts (good : Ghostable size sizes rank ids) : GoodGhosts rank e ids where
  distinct := good.distinct
  known id member := (lt_globalSize_iff laid).2 (good.known id member)
  others id member own := good.others id member <|
    (ownerOf_eq_iff laid inside ((lt_globalSize_iff laid).2 (good.known id member))).1 own

/-- Going through ghost ids stops at the first that is not good, if there is one. -/
theorem ghostPlacesFrom_verdict {seen : List UInt64} (good : Ghostable size sizes rank seen)
    {places : Std.ExtTreeMap UInt64 Nat} (tracked : ∀ id, places.contains id ↔ id ∈ seen)
    (place : Nat) (ids : List UInt64) :
    (∃ found, ghostPlacesFrom e rank places place ids = .ok found ∧
      Ghostable size sizes rank (seen ++ ids)) ∨
    ∃ fault, ghostPlacesFrom e rank places place ids = .error fault ∧
      FirstFault size sizes rank (seen ++ ids) fault := by
  induction ids generalizing seen places place with
  | nil => exact .inl ⟨places, rfl, by rwa [List.append_nil]⟩
  | cons id rest ih =>
    by_cases known : id < e.globalSize
    case neg =>
      have beyond : idsBefore sizes size ≤ id.toNat :=
        Nat.not_lt.1 (mt (lt_globalSize_iff laid).2 known)
      rw [ghostPlacesFrom, ghostOwner, Extents.findOwner, if_pos (UInt64.not_lt.1 known),
        globalSize_eq_ofNat laid]
      exact .inr ⟨_, rfl, seen, id, rest, rfl, good, .unknown beyond⟩
    by_cases own : e.ownerOf id = rank
    case pos =>
      have held := (ownerOf_eq_iff laid inside known).1 own
      have refused : ghostOwner e rank id = .error (.ghostIdLocallyOwned id rank) := by
        rw [ghostOwner, Extents.findOwner_eq known]
        exact if_pos own
      rw [ghostPlacesFrom, refused]
      exact .inr ⟨_, rfl, seen, id, rest, rfl, good, .own held⟩
    rw [ghostPlacesFrom_cons known own]
    by_cases again : places.contains id
    case pos =>
      rw [if_pos again]
      exact .inr ⟨_, rfl, seen, id, rest, rfl, good, .repeated ((tracked id).1 again)⟩
    -- the id is good, and is seen when the others are looked at
    have longer : Ghostable size sizes rank (seen ++ [id]) := by
      refine ghostable_append_singleton_iff.2 ⟨good, ?_⟩
      rintro _ (beyond | held | earlier)
      · exact Nat.not_lt.2 beyond ((lt_globalSize_iff laid).1 known)
      · exact own ((ownerOf_eq_iff laid inside known).2 held)
      · exact again ((tracked id).2 earlier)
    have tracking : ∀ other, (places.insert id place).contains other ↔ other ∈ seen ++ [id] := by
      intro other
      rw [Std.ExtTreeMap.contains_insert, Bool.or_eq_true, tracked, List.mem_append,
        List.mem_singleton, Or.comm]
      refine or_congr_right ?_
      rw [beq_iff_eq, Std.LawfulEqOrd.compare_eq_iff_eq]
      exact eq_comm
    have later := ih longer tracking (place + 1)
    rw [if_neg again]
    rwa [← List.append_cons] at later

theorem ghostPlaces_verdict (ids : List UInt64) :
    (∃ places, ghostPlaces ⟨rank, size⟩ e ids = .ok places ∧ Ghostable size sizes rank ids) ∨
    ∃ fault, ghostPlaces ⟨rank, size⟩ e ids = .error fault ∧
      FirstFault size sizes rank ids fault := by
  have numbered : e.checkNumRanks size = .ok () := if_pos laid.numRanks_eq
  unfold ghostPlaces
  rw [numbered]
  have none_yet (id : UInt64) : (∅ : Std.ExtTreeMap UInt64 Nat).contains id ↔ id ∈ [] := by simp
  exact ghostPlacesFrom_verdict laid inside ghostable_nil none_yet 0 ids

theorem ghostPlaces_eq_error_iff {fault : VectorError} :
    ghostPlaces ⟨rank, size⟩ e ids = .error fault ↔ FirstFault size sizes rank ids fault := by
  rcases ghostPlaces_verdict laid inside ids with ⟨places, passed, good⟩ | ⟨first, refused, wrong⟩
  · rw [passed]
    exact ⟨nofun, fun wrong => absurd good wrong.not_ghostable⟩
  · rw [refused, Except.error.injEq]
    exact ⟨fun same => same ▸ wrong, fun other => wrong.unique inside other⟩

theorem exists_firstFault (bad : ¬ Ghostable size sizes rank ids) :
    ∃ fault, FirstFault size sizes rank ids fault := by
  rcases ghostPlaces_verdict laid inside ids with ⟨-, -, good⟩ | ⟨fault, -, wrong⟩
  · exact absurd good bad
  · exact ⟨fault, wrong⟩

end found

theorem FirstFault.severity_eq {fault : VectorError}
    (first : FirstFault size sizes rank ids fault) : fault.severity = .invalidArgument := by
  obtain ⟨_, _, _, -, -, wrong⟩ := first
  cases wrong <;> rfl

end ghosts

/-! ## How a group ends -/

namespace Group

variable {α β : Type} {size : Nat} {fault : Nat → VectorError → Prop} {operation : String}
  {outcomes : Nat → Except VectorError α}

/-- Some ranks have found faults. Each of these ends with its own, and all others with an error
that names exactly these ranks, from the lowest on. -/
structure Refused (size : Nat) (fault : Nat → VectorError → Prop) (operation : String)
    (outcomes : Nat → Except VectorError α) : Prop where
  own : ∀ rank < size, ∀ e, fault rank e → outcomes rank = .error e
  others : ∃ failed : List Nat, failed.Pairwise (· < ·) ∧
    (∀ rank, rank ∈ failed ↔ rank < size ∧ ∃ e, fault rank e) ∧
    ∀ rank < size, rank ∉ failed →
      outcomes rank = .error (.peerFailed rank operation failed .invalidArgument)

theorem failureClass_eq (mild : ∀ rank < size, ∀ e, outcomes rank = .error e →
    e.severity = .invalidArgument) : failureClass size outcomes = .invalidArgument := by
  cases worst : failureClass size outcomes with
  | invalidArgument => rfl
  | protocol =>
    obtain ⟨rank, inside, e, failed, fatal⟩ := failureClass_eq_protocol_iff.1 worst
    cases (mild rank inside e failed).symm.trans fatal

theorem refused_agreed
    (found : ∀ rank < size, ∀ e, outcomes rank = .error e ↔ fault rank e)
    (mild : ∀ rank < size, ∀ e, fault rank e → e.severity = .invalidArgument)
    (someone : ∃ rank < size, ∃ e, fault rank e) :
    Refused size fault operation (agreed size outcomes operation) where
  own rank inside e wrong := by
    rw [agreed, (found rank inside e).2 wrong]
  others := by
    have listed (rank : Nat) : rank ∈ failing size outcomes ↔ rank < size ∧ ∃ e, fault rank e := by
      rw [mem_failing]
      exact and_congr_right fun inside => exists_congr fun e => found rank inside e
    refine ⟨failing size outcomes, List.pairwise_lt_range.filter _, listed,
      fun rank inside absent => ?_⟩
    have nonempty : ¬ (failing size outcomes).isEmpty := by
      obtain ⟨odd, within, wrong⟩ := someone
      exact mt List.isEmpty_iff.1 (List.ne_nil_of_mem ((listed odd).2 ⟨within, wrong⟩))
    have class_eq := failureClass_eq fun rank inside e failed =>
      mild rank inside e ((found rank inside e).1 failed)
    cases own : outcomes rank with
    | error e => exact absurd (mem_failing.2 ⟨inside, e, own⟩) absent
    | ok value => rw [agreed, own, class_eq]; exact if_neg nonempty

namespace Refused

theorem congr {others : Nat → Except VectorError α}
    (refused : Refused size fault operation outcomes)
    (same : ∀ rank < size, others rank = outcomes rank) : Refused size fault operation others where
  own rank inside e wrong := (same rank inside).trans (refused.own rank inside e wrong)
  others := by
    obtain ⟨failed, ordered, listed, rest⟩ := refused.others
    exact ⟨failed, ordered, listed,
      fun rank inside absent => (same rank inside).trans (rest rank inside absent)⟩

/-- Nothing is done after a refusal. -/
theorem bind (refused : Refused size fault operation outcomes)
    (f : Nat → α → Except VectorError β) :
    Refused size fault operation fun rank => outcomes rank >>= f rank where
  own rank inside e wrong := by
    rw [refused.own rank inside e wrong]
    rfl
  others := by
    obtain ⟨failed, ordered, listed, rest⟩ := refused.others
    refine ⟨failed, ordered, listed, fun rank inside absent => ?_⟩
    rw [rest rank inside absent]
    rfl

end Refused

end Group

/-! ## Constructions -/

/-- A rank that declares another global size than the sizes come to. -/
def Misdeclared (size : Nat) (sizes globals : Nat → UInt64) (rank : Nat) (fault : VectorError) :
    Prop :=
  (globals rank).toNat ≠ idsBefore sizes size ∧
    fault = .globalSizeMismatch (globals rank) (.ofNat (idsBefore sizes size))

/-- How a construction ends on the ranks of a group, for what they bring along: their sizes, the
global sizes that they declare and the ids of which they want ghosts. What is made is made `Over`
some extents. -/
structure Verdict {α : Type} (size : Nat) (sizes globals : Nat → UInt64)
    (ids : Nat → List UInt64) (operation : String) (Over : α → Extents → Prop)
    (outcomes : Nat → Except VectorError α) : Prop where
  overflow : Extents.idLimit ≤ idsBefore sizes size →
    ∀ rank < size, outcomes rank = .error .sizeOverflow
  mismatch : idsBefore sizes size < Extents.idLimit →
    (∃ rank < size, (globals rank).toNat ≠ idsBefore sizes size) →
    Group.Refused size (Misdeclared size sizes globals) operation outcomes
  ghosts : idsBefore sizes size < Extents.idLimit →
    (∀ rank < size, (globals rank).toNat = idsBefore sizes size) →
    (∃ rank < size, ¬ Ghostable size sizes rank (ids rank)) →
    Group.Refused size (fun rank => FirstFault size sizes rank (ids rank)) operation outcomes
  made : idsBefore sizes size < Extents.idLimit →
    (∀ rank < size, (globals rank).toNat = idsBefore sizes size) →
    (∀ rank < size, Ghostable size sizes rank (ids rank)) →
    ∃ e : Extents, e.numRanks = size ∧
      (∀ rank < size, ∃ range, e.range rank = .ok range ∧ range.length = (sizes rank).toNat) ∧
      ∀ rank < size, ∃ result, outcomes rank = .ok result ∧ Over result e

section verdict

variable {size : Nat} {sizes globals : Nat → UInt64} {operation : String}

theorem Extents.LaidOut.checkGlobalSize_eq_error_iff {e : Extents} (laid : e.LaidOut size sizes)
    {rank : Nat} {fault : VectorError} :
    e.checkGlobalSize (globals rank) = .error fault ↔
      Misdeclared size sizes globals rank fault := by
  have right : e.globalSize = globals rank ↔ (globals rank).toNat = idsBefore sizes size := by
    rw [← UInt64.toNat_inj, laid.toNat_globalSize, eq_comm]
  rw [checkGlobalSize, Misdeclared, ← globalSize_eq_ofNat laid, ne_eq, ← right]
  split
  · rename_i same
    simp [same]
  · rename_i other
    simp [other, eq_comm]

namespace Extents

theorem exists_declared (populated : 0 < size) (fits : idsBefore sizes size < idLimit) :
    ∃ e : Extents, e.LaidOut size sizes ∧ ∀ rank, declared size sizes globals operation rank =
      Group.agreed size (fun rank => e.checkGlobalSize (globals rank)) operation rank >>=
        fun _ => pure e := by
  obtain ⟨e, made, laid⟩ := exists_ofSizes populated fits
  refine ⟨e, laid, fun rank => ?_⟩
  rw [declared, made]
  rfl

/-- If all ranks declare the right global size, all get the extents. -/
theorem exists_declared_eq_ok (populated : 0 < size) (fits : idsBefore sizes size < idLimit)
    (right : ∀ rank < size, (globals rank).toNat = idsBefore sizes size) :
    ∃ e : Extents, e.LaidOut size sizes ∧
      ∀ rank < size, declared size sizes globals operation rank = .ok e := by
  obtain ⟨e, laid, same⟩ := exists_declared populated fits
  refine ⟨e, laid, fun rank inside => ?_⟩
  have passed : ∀ rank < size, e.checkGlobalSize (globals rank) = .ok () := by
    intro rank inside
    cases checked : e.checkGlobalSize (globals rank) with
    | ok => rfl
    | error fault =>
      exact absurd (right rank inside) (laid.checkGlobalSize_eq_error_iff.1 checked).1
  rw [same, Group.agreed_ok passed inside]
  rfl

/-- Otherwise the group learns who does not. -/
theorem refused_declared (populated : 0 < size) (fits : idsBefore sizes size < idLimit)
    (someone : ∃ rank < size, (globals rank).toNat ≠ idsBefore sizes size) :
    Group.Refused size (Misdeclared size sizes globals) operation
      (declared size sizes globals operation) := by
  obtain ⟨e, laid, same⟩ := exists_declared populated fits
  obtain ⟨odd, inside, wrong⟩ := someone
  have refused : Group.Refused size (Misdeclared size sizes globals) operation
      (Group.agreed size (fun rank => e.checkGlobalSize (globals rank)) operation) := by
    refine Group.refused_agreed (fun rank _ fault => laid.checkGlobalSize_eq_error_iff) ?_
      ⟨odd, inside, _, wrong, rfl⟩
    rintro rank _ _ ⟨-, rfl⟩
    rfl
  exact (refused.bind _).congr fun rank _ => same rank

end Extents

/-- Whatever is made over the extents of a group once they are agreed on. -/
theorem verdict_of_declared {α : Type} {ids : Nat → List UInt64} {Over : α → Extents → Prop}
    {make : Nat → Extents → Except VectorError α} (populated : 0 < size)
    (refuses : ∀ e : Extents, e.LaidOut size sizes →
      (∃ rank < size, ¬ Ghostable size sizes rank (ids rank)) →
      Group.Refused size (fun rank => FirstFault size sizes rank (ids rank)) operation
        fun rank => make rank e)
    (makes : ∀ e : Extents, e.LaidOut size sizes →
      (∀ rank < size, Ghostable size sizes rank (ids rank)) →
      ∀ rank < size, ∃ result, make rank e = .ok result ∧ Over result e) :
    Verdict size sizes globals ids operation Over
      fun rank => Extents.declared size sizes globals operation rank >>= make rank := by
  constructor
  case overflow =>
    intro beyond rank _
    rw [Extents.declared, Extents.ofSizes_eq_overflow populated beyond]
    rfl
  case mismatch =>
    intro fits someone
    exact (Extents.refused_declared populated fits someone).bind make
  case ghosts =>
    intro fits right someone
    obtain ⟨e, laid, same⟩ := Extents.exists_declared_eq_ok populated fits right
    exact (refuses e laid someone).congr fun rank inside => by rw [same rank inside]; rfl
  case made =>
    intro fits right good
    obtain ⟨e, laid, same⟩ := Extents.exists_declared_eq_ok populated fits right
    refine ⟨e, laid.numRanks_eq, fun rank inside => laid.localSize_eq inside,
      fun rank inside => ?_⟩
    rw [same rank inside]
    exact makes e laid good rank inside

end verdict

namespace Halo

/-- Good ghost ids are enough for halos. -/
theorem exists_together {size : Nat} {e : Extents} {ids : Nat → List UInt64}
    (ranks : e.numRanks = size) (good : ∀ rank < size, GoodGhosts rank e (ids rank))
    (tags : HaloTags) : ∃ halos : Nat → Halo, Together size (fun _ => e) ids tags halos := by
  have placed : ∀ rank < size, ∃ places, ghostPlaces ⟨rank, size⟩ e (ids rank) = .ok places := by
    intro rank inside
    obtain ⟨places, found⟩ := exists_ghostPlacesFrom (good rank inside)
      (fun _ _ => Std.ExtTreeMap.contains_empty) 0
    exact ⟨places, bind_eq_ok_iff.2 ⟨(), if_pos ranks, found⟩⟩
  choose! places found using placed
  have made : ∀ rank < size, ∃ halo, built size (fun _ => e) ids tags rank = .ok halo := by
    intro rank inside
    obtain ⟨plan, planned⟩ := Plan.exists_built (fun rank inside => ⟨ranks, good rank inside⟩)
      (fun rank inside id => Plan.contains_of_mem_asks (fun _ _ => rfl) inside) inside
    exact ⟨_, bind_eq_ok_iff.2 ⟨_, Group.agreed_ok found inside, bind_eq_ok_iff.2 ⟨plan, planned,
      bind_eq_ok_iff.2 ⟨_, slotsOf_eq (exists_position inside planned), rfl⟩⟩⟩⟩
  have : Nonempty Halo := ⟨(made 0 (ranks ▸ e.numRanks_pos)).choose⟩
  choose! halos built using made
  exact ⟨halos, built⟩

variable {size : Nat} {sizes : Nat → UInt64} {ids : Nat → List UInt64} {e : Extents}
  (laid : e.LaidOut size sizes) (tags : HaloTags)

include laid

theorem refused_built (someone : ∃ rank < size, ¬ Ghostable size sizes rank (ids rank)) :
    Group.Refused size (fun rank => FirstFault size sizes rank (ids rank))
      "ghost communicator construction" (built size (fun _ => e) ids tags) := by
  obtain ⟨odd, inside, bad⟩ := someone
  exact .bind (Group.refused_agreed (fun rank inside fault => ghostPlaces_eq_error_iff laid inside)
    (fun rank _ fault first => first.severity_eq)
    ⟨odd, inside, exists_firstFault laid inside bad⟩) _

theorem exists_built (good : ∀ rank < size, Ghostable size sizes rank (ids rank)) {rank : Nat}
    (inside : rank < size) :
    ∃ halo, built size (fun _ => e) ids tags rank = .ok halo ∧ halo.extents = e := by
  obtain ⟨halos, together⟩ := exists_together laid.numRanks_eq
    (fun rank inside => (good rank inside).goodGhosts laid inside) tags
  exact ⟨halos rank, together rank inside, together.extents_eq inside⟩

end Halo

/-- A group that makes halos, vectors or vectors with ghosts makes them on all ranks or on none.
There is one verdict, and every rank learns its part of it, under every schedule. -/
theorem construction_verdicts {size : Nat} (populated : 0 < size) (sizes globals : Nat → UInt64)
    (ids : Nat → List UInt64) (haloTags : HaloTags) (tags : VectorTags) :
    (∃ outcomes : Nat → Except VectorError Halo,
      Group.Settles size
        (fun rank => (Halo.create (.member rank size) (sizes rank) (globals rank) (ids rank)
          haloTags).run) outcomes ∧
      Verdict size sizes globals ids "ghost communicator construction"
        (fun halo e => halo.extents = e) outcomes) ∧
    (∃ outcomes : Nat → Except VectorError Shard,
      Group.Settles size
        (fun rank => (Shard.create (.member rank size) (sizes rank) (globals rank) tags).run)
        outcomes ∧
      Verdict size sizes globals (fun _ => []) "vector construction"
        (fun shard e => shard.extents = e) outcomes) ∧
    ∃ outcomes : Nat → Except VectorError GhostedShard,
      Group.Settles size
        (fun rank => (GhostedShard.create (.member rank size) (sizes rank) (globals rank)
          (ids rank) tags).run) outcomes ∧
      Verdict size sizes globals ids "ghost communicator construction"
        (fun ghosted e => ghosted.shard.extents = e ∧ ghosted.halo.extents = e) outcomes := by
  refine ⟨⟨_, Halo.settles_create, ?halos⟩, ⟨_, Shard.settles_create, ?shards⟩,
    ⟨_, GhostedShard.settles_create, ?ghosted⟩⟩
  case halos =>
    exact verdict_of_declared populated (fun e laid => Halo.refused_built laid haloTags)
      fun e laid good rank inside => Halo.exists_built laid haloTags good inside
  case shards =>
    refine verdict_of_declared populated (fun e laid someone => ?_)
      fun e laid _ rank _ => ⟨_, rfl, rfl⟩
    obtain ⟨rank, -, bad⟩ := someone
    exact absurd ghostable_nil bad
  case ghosted =>
    simp only [Halo.created, bind_assoc]
    refine verdict_of_declared populated
      (fun e laid someone => (Halo.refused_built laid tags.halo someone).bind _)
      fun e laid good rank inside => ?_
    obtain ⟨halo, passed, spans⟩ := Halo.exists_built laid tags.halo good inside
    rw [passed]
    exact ⟨_, rfl, spans, spans⟩

/-- Three ranks of which the first alone has good ghosts. The second wants an id that there is
not, behind one that there is, and the last one wants its own. -/
def misfitSizes : Nat → UInt64
  | 0 => 2
  | _ => 1

def misfitIds : Nat → List UInt64
  | 0 => [2]
  | 1 => [3, 9]
  | _ => [3]

theorem construction_verdicts_misfits : ∃ outcomes : Nat → Except VectorError Halo,
    Group.Settles 3
      (fun rank => (Halo.create (.member rank 3) (misfitSizes rank) 4 (misfitIds rank)
        default).run) outcomes ∧
    outcomes 0 = .error (.peerFailed 0 "ghost communicator construction" [1, 2] .invalidArgument) ∧
    outcomes 1 = .error (.invalidGlobalId 9 4) ∧
    outcomes 2 = .error (.ghostIdLocallyOwned 3 2) := by
  obtain ⟨⟨outcomes, settled, verdict⟩, -, -⟩ :=
    construction_verdicts (by decide : 0 < 3) misfitSizes (fun _ => 4) misfitIds default default
  have good : Ghostable 3 misfitSizes 0 [2] := by
    refine ⟨List.forall_mem_singleton.2 (by decide), List.forall_mem_singleton.2 ?_, by decide⟩
    rintro ⟨-, below⟩
    exact absurd below (by decide)
  have second : FirstFault 3 misfitSizes 1 [3, 9] (.invalidGlobalId 9 4) := by
    refine ⟨[3], 9, [], rfl, ⟨List.forall_mem_singleton.2 (by decide),
      List.forall_mem_singleton.2 ?_, by decide⟩, .unknown (by decide)⟩
    rintro ⟨-, below⟩
    exact absurd below (by decide)
  have third : FirstFault 3 misfitSizes 2 [3] (.ghostIdLocallyOwned 3 2) :=
    ⟨[], 3, [], rfl, ghostable_nil, .own ⟨by decide, by decide⟩⟩
  have refused := verdict.ghosts (by decide) (by decide) ⟨2, by decide, third.not_ghostable⟩
  obtain ⟨failed, ordered, listed, rest⟩ := refused.others
  have named : failed = [1, 2] := by
    refine ordered.eq_of_mem_iff (by decide) fun rank => (listed rank).trans ?_
    match rank with
    | 0 => exact ⟨fun ⟨_, _, wrong⟩ => absurd good wrong.not_ghostable, by simp⟩
    | 1 => exact ⟨by simp, fun _ => ⟨by decide, _, second⟩⟩
    | 2 => exact ⟨by simp, fun _ => ⟨by decide, _, third⟩⟩
    | rank + 3 => simp
  exact ⟨outcomes, settled, named ▸ rest 0 (by decide) (named ▸ by decide),
    refused.own 1 (by decide) _ second, refused.own 2 (by decide) _ third⟩

end HaloVector
