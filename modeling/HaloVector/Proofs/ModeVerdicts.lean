import HaloVector.Proofs.Answers
import HaloVector.Proofs.Consensus

/-!
# Verdicts on modes

Before an assembly the ranks look at the modes of all queues. Whether these go together is said
here rank by rank: no queue is mixed, and not one rank sets while another adds. The assembly
compares each mode with the greatest one instead, by which a lone mixed queue would pass. It comes
to the same nevertheless.

A mode arrives as a byte. A byte that is no code of a mode counts as a mixed queue.

* `groupMode_eq_ok_iff_compatible` says when there is a mode of the group, and which.
* `exists_mismatch` says what all ranks report otherwise.
* `modes_are_judged_alike` puts both to the ranks of a group and to a rank among arbitrary peers.
-/

namespace HaloVector

/-! ## Modes that ranks report -/

/-- The byte of a rank stands for this mode. -/
def Reports (codes : List UInt8) (rank : Nat) (mode : QueueMode) : Prop :=
  ∃ code, codes[rank]? = some code ∧ (code = mode.code ∨ mode = .mixed ∧ 3 < code)

/-- No queue is mixed, and there are not both sets and adds. -/
def Compatible (codes : List UInt8) : Prop :=
  (∀ rank, ¬Reports codes rank .mixed) ∧
    ¬((∃ rank, Reports codes rank .set) ∧ ∃ rank, Reports codes rank .add)

/-- The mode in which compatible ranks assemble: that of the ranks with anything queued. -/
def CommonMode (codes : List UInt8) : QueueMode → Prop
  | .empty => ∀ rank mode, Reports codes rank mode → mode = .empty
  | .mixed => False
  | mode => ∃ rank, Reports codes rank mode

/-- The greatest mode, and the ranks that stand in the way of a common one. -/
structure Mismatch (codes : List UInt8) (greatest : QueueMode)
    (against : List (Nat × QueueMode)) : Prop where
  reported : ∃ rank, Reports codes rank greatest
  maximal : ∀ rank mode, Reports codes rank mode → mode.code ≤ greatest.code
  ascending : against.Pairwise (·.1 < ·.1)
  mem_iff : ∀ rank mode, (rank, mode) ∈ against ↔
    Reports codes rank mode ∧ (mode = .mixed ∨ mode ≠ .empty ∧ mode ≠ greatest)
  nonempty : against ≠ []

namespace QueueMode

/-- The mode that a byte stands for. -/
def ofByte (code : UInt8) : QueueMode := (ofCode? code).getD .mixed

theorem ofByte_code (mode : QueueMode) : ofByte mode.code = mode := by
  rw [ofByte, ofCode?_code, Option.getD_some]

theorem ofByte_eq_mixed {code : UInt8} (unknown : 3 < code) : ofByte code = .mixed := by
  have far : 4 ≤ code.toNat := UInt8.lt_iff_toNat_lt.1 unknown
  rw [ofByte, ofCode?, List.getElem?_eq_none far, Option.getD_none]

/-- A byte is the code of a mode, or greater than all of these. -/
theorem eq_code_or (code : UInt8) : (∃ mode, code = QueueMode.code mode) ∨ 3 < code := by
  by_cases unknown : 3 < code
  · exact .inr unknown
  · have near : code.toNat < 4 := by
      rw [UInt8.lt_iff_toNat_lt] at unknown
      exact Nat.lt_succ_of_le (Nat.le_of_not_lt unknown)
    refine .inl ?_
    match known : code.toNat, near with
    | 0, _ => exact ⟨.empty, UInt8.toNat.inj known⟩
    | 1, _ => exact ⟨.set, UInt8.toNat.inj known⟩
    | 2, _ => exact ⟨.add, UInt8.toNat.inj known⟩
    | 3, _ => exact ⟨.mixed, UInt8.toNat.inj known⟩

theorem ofByte_eq_iff {code : UInt8} {mode : QueueMode} :
    ofByte code = mode ↔ code = mode.code ∨ mode = .mixed ∧ 3 < code := by
  constructor
  · rintro rfl
    rcases eq_code_or code with ⟨mode, rfl⟩ | unknown
    · exact .inl (congrArg _ (ofByte_code mode).symm)
    · exact .inr ⟨ofByte_eq_mixed unknown, unknown⟩
  · rintro (rfl | ⟨rfl, unknown⟩)
    · exact ofByte_code mode
    · exact ofByte_eq_mixed unknown

theorem code_le_max_left (a b : QueueMode) : a.code ≤ (a.max b).code := by
  cases a <;> cases b <;> decide

theorem code_le_max_right (a b : QueueMode) : b.code ≤ (a.max b).code := by
  cases a <;> cases b <;> decide

theorem code_le_foldl_max {modes : List QueueMode} {start mode : QueueMode}
    (present : mode = start ∨ mode ∈ modes) : mode.code ≤ (modes.foldl max start).code := by
  induction modes generalizing start mode with
  | nil =>
    obtain rfl := present.resolve_right List.not_mem_nil
    exact UInt8.le_refl _
  | cons first rest ih =>
    rw [List.foldl_cons]
    have further : (start.max first).code ≤ (rest.foldl max (start.max first)).code :=
      ih (.inl rfl)
    rcases present with rfl | member
    · exact UInt8.le_trans (code_le_max_left mode first) further
    · rcases List.mem_cons.1 member with rfl | later
      · exact UInt8.le_trans (code_le_max_right start mode) further
      · exact ih (.inr later)

end QueueMode

variable {codes : List UInt8} {rank : Nat} {mode : QueueMode}

theorem reports_iff :
    Reports codes rank mode ↔ (codes.map QueueMode.ofByte)[rank]? = some mode := by
  rw [List.getElem?_map, Option.map_eq_some_iff]
  exact exists_congr fun code => and_congr_right fun _ => QueueMode.ofByte_eq_iff.symm

theorem exists_reports_iff :
    (∃ rank, Reports codes rank mode) ↔ mode ∈ codes.map QueueMode.ofByte := by
  rw [List.mem_iff_getElem?]
  exact exists_congr fun _ => reports_iff

/-- The modes agree pairwise exactly if no rank stands out. -/
theorem compatible_iff : Compatible codes ↔ QueueMode.Agree (codes.map QueueMode.ofByte) := by
  simp only [Compatible, ← not_exists, exists_reports_iff]
  constructor
  · rintro ⟨unmixed, apart⟩ mode member
    have mixed : mode ≠ .mixed := fun same => unmixed (same ▸ member)
    refine ⟨mixed, fun other present some' someOther => ?_⟩
    have mixedOther : other ≠ .mixed := fun same => unmixed (same ▸ present)
    match mode, other with
    | .set, .set | .add, .add => rfl
    | .set, .add => exact absurd ⟨member, present⟩ apart
    | .add, .set => exact absurd ⟨present, member⟩ apart
  · intro agree
    refine ⟨fun mixed => (agree _ mixed).1 rfl, fun ⟨sets, adds⟩ => ?_⟩
    cases (agree _ sets).2 _ adds nofun nofun

/-- Compatible ranks have one common mode, the greatest of theirs. -/
theorem commonMode_iff (compatible : Compatible codes) :
    CommonMode codes mode ↔ mode = QueueMode.greatest (codes.map QueueMode.ofByte) := by
  have agree := compatible_iff.1 compatible
  have top : ∀ {mode}, mode ∈ codes.map QueueMode.ofByte → mode ≠ .empty →
      QueueMode.greatest (codes.map QueueMode.ofByte) = mode := agree.greatest_eq
  have found := QueueMode.foldl_max_mem (codes.map QueueMode.ofByte) .empty
  change QueueMode.greatest _ = _ ∨ QueueMode.greatest _ ∈ _ at found
  constructor
  · intro common
    match mode, common with
    | .set, common => exact (top (exists_reports_iff.1 common) nofun).symm
    | .add, common => exact (top (exists_reports_iff.1 common) nofun).symm
    | .empty, common =>
      rcases found with none' | present
      · exact none'.symm
      · obtain ⟨rank, reported⟩ := exists_reports_iff.2 present
        exact (common rank _ reported).symm
  · rintro rfl
    match known : QueueMode.greatest (codes.map QueueMode.ofByte), found with
    | .set, found => exact exists_reports_iff.2 (found.resolve_left nofun)
    | .add, found => exact exists_reports_iff.2 (found.resolve_left nofun)
    | .mixed, found => exact (agree _ (found.resolve_left nofun)).1 rfl
    | .empty, _ =>
      intro rank mode reported
      by_contra some'
      exact some' ((top (exists_reports_iff.1 ⟨rank, reported⟩) some').symm.trans known)

/-! ## Verdicts -/

theorem mem_offenders {modes : List QueueMode} :
    (rank, mode) ∈ offenders modes ↔ modes[rank]? = some mode ∧
      (mode = .mixed ∨ mode ≠ .empty ∧ mode ≠ QueueMode.greatest modes) := by
  unfold offenders
  simp only [List.mem_filterMap, Prod.exists, List.mk_mem_zipIdx_iff_getElem?,
    Option.ite_none_right_eq_some, Option.some.injEq, Prod.mk.injEq]
  constructor
  · rintro ⟨_, _, here, against, rfl, rfl⟩
    exact ⟨here, against⟩
  · rintro ⟨here, against⟩
    exact ⟨mode, rank, here, against, rfl, rfl⟩

theorem pairwise_offenders (modes : List QueueMode) :
    (offenders modes).Pairwise (·.1 < ·.1) := by
  unfold offenders
  rw [List.pairwise_filterMap]
  have ascending : (modes.zipIdx.map Prod.snd).Pairwise (· < ·) := by
    rw [List.zipIdx_map_snd]
    exact List.pairwise_lt_range'
  refine (List.pairwise_map.1 ascending).imp fun {a b} below => ?_
  intro x kept y keptToo
  simp only [Option.ite_none_right_eq_some, Option.some.injEq] at kept keptToo
  obtain ⟨⟨-, rfl⟩, -, rfl⟩ := And.intro kept keptToo
  exact below

theorem groupMode_eq (codes : List UInt8) (rank : Nat) (own : QueueMode) :
    groupMode rank own codes =
      if (offenders (codes.map QueueMode.ofByte)).isEmpty
      then .ok (QueueMode.greatest (codes.map QueueMode.ofByte))
      else .error (.modeMismatch rank own (QueueMode.greatest (codes.map QueueMode.ofByte))
        (offenders (codes.map QueueMode.ofByte))) := rfl

theorem groupMode_eq_ok_iff_compatible {own : QueueMode} :
    groupMode rank own codes = .ok mode ↔ Compatible codes ∧ CommonMode codes mode := by
  rw [groupMode_eq]
  by_cases compatible : Compatible codes
  · rw [offenders_eq_nil_iff.2 (compatible_iff.1 compatible), commonMode_iff compatible]
    constructor
    · exact fun same => ⟨compatible, (Except.ok.inj same).symm⟩
    · exact fun ⟨_, same⟩ => congrArg Except.ok same.symm
  · rw [if_neg fun none' => compatible
      (compatible_iff.2 (offenders_eq_nil_iff.1 (List.isEmpty_iff.1 none')))]
    exact ⟨nofun, fun ⟨passed, _⟩ => absurd passed compatible⟩

/-- What stands in the way is the same for all ranks. -/
theorem exists_mismatch (incompatible : ¬Compatible codes) :
    ∃ greatest against, Mismatch codes greatest against ∧ ∀ rank own,
      groupMode rank own codes = .error (.modeMismatch rank own greatest against) := by
  let modes := codes.map QueueMode.ofByte
  have some' : offenders modes ≠ [] :=
    fun none' => incompatible (compatible_iff.2 (offenders_eq_nil_iff.1 none'))
  refine ⟨QueueMode.greatest modes, offenders modes, ⟨exists_reports_iff.2 ?_, ?_,
    pairwise_offenders modes, fun _ _ => ?_, some'⟩, fun rank own => ?_⟩
  · rcases QueueMode.foldl_max_mem modes .empty with none' | present
    · -- the group has a rank, and nothing is less than an empty queue
      obtain ⟨⟨rank, mode⟩, member⟩ := List.exists_mem_of_ne_nil _ some'
      have here := List.mem_of_getElem? (mem_offenders.1 member).1
      have least : mode.code ≤ (modes.foldl QueueMode.max .empty).code :=
        QueueMode.code_le_foldl_max (.inr here)
      rw [none'] at least
      have same : mode = .empty := by
        revert least
        cases mode <;> decide
      have top : QueueMode.greatest modes = mode := none'.trans same.symm
      exact top ▸ here
    · exact present
  · exact fun rank mode reported =>
      QueueMode.code_le_foldl_max (.inr (exists_reports_iff.1 ⟨rank, reported⟩))
  · rw [mem_offenders, reports_iff]
  · rw [groupMode_eq]
    exact if_neg (mt List.isEmpty_iff.1 some')

/-! ## Over any transport, and in a group -/

/-- What comes after a program and needs nothing from the transport. -/
theorem Program.runOver_bind_done {α β σ : Type} {p : Program β} {t : Transport σ} {s : σ}
    {value : β} (ended : (p.runOver t s).1 = .finished value) (g : β → α) :
    ((p.bind fun value => .done (g value)).runOver t s).1 = .finished (g value) := by
  induction p generalizing s with
  | done other => exact congrArg _ (congrArg g (Ending.finished.inj ended))
  | halt why => cases ended
  | log level text next ih => exact ih ended
  | post source tag length next ih => exact ih _ ended
  | send target tag data next ih => exact ih ended
  | await ticket next ih => exact ih _ ended
  | flush target tag next ih => exact ih ended

theorem agreeOnMode_run (c : Communicator) (mode : QueueMode) :
    (agreeOnMode c mode).run = (gather c mode.code).run.bind fun outcome =>
      .done (outcome >>= groupMode c.rank mode) := by
  unfold agreeOnMode
  rw [Collective.run_bind]
  congr 1
  funext outcome
  cases outcome <;> rfl

/-- Whatever bytes the ranks have gathered, each of them comes to a mode exactly if they are
compatible, and then it is their common one. Else each reports the same greatest mode and the same
ranks that stand in the way. So it is for a rank among any peers, and on all ranks of a group. -/
theorem modes_are_judged_alike (codes : List UInt8) :
    (∀ rank own mode, groupMode rank own codes = .ok mode ↔
      Compatible codes ∧ CommonMode codes mode) ∧
    (¬Compatible codes → ∃ greatest against, Mismatch codes greatest against ∧ ∀ rank own,
      groupMode rank own codes = .error (.modeMismatch rank own greatest against)) ∧
    (∀ (c : Communicator) (mode : QueueMode) {σ : Type} (t : Transport σ) (s : σ),
      ((gather c mode.code).run.runOver t s).1 = .finished (.ok codes) →
      ((agreeOnMode c mode).run.runOver t s).1 = .finished (groupMode c.rank mode codes)) ∧
    ∀ (size : Nat) (modes : Nat → QueueMode),
      codes = (List.range size).map (fun rank => (modes rank).code) →
      Group.Settles size (fun rank => (agreeOnMode (.member rank size) (modes rank)).run)
        fun rank => groupMode rank (modes rank) codes := by
  refine ⟨fun rank own mode => groupMode_eq_ok_iff_compatible, exists_mismatch,
    fun c mode σ t s gathered => ?_, fun size modes polled => ?_⟩
  · rw [agreeOnMode_run]
    exact Program.runOver_bind_done gathered _
  · have settled : Group.Settles size _ _ := Group.settles_agreeOnMode modes
    rw [List.map_map] at settled
    subst polled
    exact settled

/-- The second of three ranks adds, and the third one sends a byte that is no mode. -/
def foreignReplies : Script :=
  .ofReplies [⟨1, .allgather, some [2]⟩, ⟨2, .allgather, some [7]⟩]

/-- Only the second rank has a mixed queue. -/
def loneMixed (rank : Nat) : QueueMode := if rank = 1 then .mixed else .empty

theorem modes_are_judged_alike_mixed :
    ((gather (.member 0 3) QueueMode.empty.code).run.runOver Script.transport foreignReplies).1 =
      .finished (.ok [0, 2, 7]) ∧
    ((agreeOnMode (.member 0 3) .empty).run.runOver Script.transport foreignReplies).1 =
      .finished (.error (.modeMismatch 0 .empty .mixed [(1, .add), (2, .mixed)])) ∧
    ¬Compatible [0, 3, 0] ∧ (∃ against, Mismatch [0, 3, 0] .mixed against) ∧
    Group.Settles 3 (fun rank => (agreeOnMode (.member rank 3) (loneMixed rank)).run)
      fun rank => .error (.modeMismatch rank (loneMixed rank) .mixed [(1, .mixed)]) := by
  have gathered : ((gather (.member 0 3) QueueMode.empty.code).run.runOver Script.transport
      foreignReplies).1 = .finished (.ok [0, 2, 7]) := rfl
  have incompatible : ¬Compatible [0, 3, 0] :=
    fun compatible => compatible.1 1 ⟨3, rfl, .inl rfl⟩
  obtain ⟨-, -, single, -⟩ := modes_are_judged_alike [0, 2, 7]
  obtain ⟨-, refused, -, grouped⟩ := modes_are_judged_alike [0, 3, 0]
  obtain ⟨greatest, against, mismatch, reported⟩ := refused incompatible
  refine ⟨gathered, single _ _ _ _ gathered, incompatible, ⟨against, ?_⟩, grouped 3 loneMixed rfl⟩
  cases reported 0 .empty
  exact mismatch

end HaloVector
