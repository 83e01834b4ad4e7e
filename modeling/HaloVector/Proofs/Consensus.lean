import HaloVector.Assembly
import HaloVector.Proofs.Delivery

/-!
# Consensus

What a group comes to know through one gather. Every rank gets the values of all in
rank order (`Group.settles_gather`), so whatever all ranks compute from them is the
same everywhere.

* `Group.settles_agreeOnOutcome` gives the outcome of each rank, `agreed`, from the
  local outcomes of all.
  `agreed_ok` and `agreed_error` say that either all ranks go on or none does.
* `Group.settles_agreeOnMode` does the same for the modes of queues.
-/

namespace HaloVector

theorem Communicator.check_member {rank size : Nat} (inside : rank < size) :
    (member rank size).check ⟨rank, size⟩ = .ok () := by
  rw [check, topology_member inside]
  exact if_pos rfl

namespace Group

/-! ## Gathering -/

section gather

variable {size : Nat}

/-- Contributions of one length arrive everywhere, in rank order, whatever was in the buffers. -/
theorem settles_allgather {contributions : Nat → Bytes} (buffers : Nat → Bytes) {length : Nat}
    (sized : ∀ rank < size, (contributions rank).length = length)
    (roomy : ∀ rank < size, (buffers rank).length = size * length) :
    Settles size
      (fun rank => allgather (.member rank size) (contributions rank) (buffers rank))
      fun _ => ⟨(List.range size).flatMap contributions, .ok ()⟩ := by
  let sent (rank : Nat) : Bytes := (List.replicate size (contributions rank)).flatten
  let counts := List.replicate size length
  have total : totalCount counts = size * length := totalCount_replicate size length
  have fitting : ∀ rank < size, checkLayouts size (sent rank) (.packed counts)
      (buffers rank) (.packed counts) = .ok () := by
    intro rank inside
    refine checkLayouts_eq_ok_iff.2 ⟨Layout.check_packed List.length_replicate ?_,
      Layout.check_packed List.length_replicate ?_⟩
    · rw [total]
      simp [sent, sized rank inside]
    · exact Nat.le_of_eq (total.trans (roomy rank inside).symm)
  have moved := settles_exchangeBytes .allgather fitting fun source inside target within => by
    simp [Layout.packed_count, counts, List.getD_eq_getElem?_getD, inside, within]
  refine .congr moved (fun rank inside => ?_) fun rank inside => ?_
  · unfold allgather
    rw [sized rank inside, ← Layout.uniform_eq_packed]
    rfl
  · have each : ∀ source < size,
        (Layout.packed counts).part (sent source) rank = contributions source := by
      intro source within
      rw [Layout.part_uniform_flatten List.length_replicate _ inside, List.getElem_replicate]
      exact fun list member => List.eq_of_mem_replicate member ▸ sized source within
    rw [writeParts_contributors inside List.length_replicate]
    · exact congrArg (Attempt.mk · (.ok ()))
        (List.flatMap_congr fun source member => each source (List.mem_range.1 member))
    · rw [roomy rank inside, total]
    · intro source within
      rw [each source within, sized source within]
      simp [List.getD_eq_getElem?_getD, within]

/-- Every rank gets the values of all. -/
theorem settles_gather {α : Type} [Cell α] [LawfulCell α] (values : Nat → α) :
    Settles size (fun rank => (gather (.member rank size) (values rank)).run)
      fun _ => .ok ((List.range size).map values) := by
  have sized : ∀ rank < size, (Cell.encode (values rank)).length = Cell.width α :=
    fun rank _ => LawfulCell.length_encode (values rank)
  have moved := settles_allgather (fun _ => List.replicate _ 0) sized fun _ _ =>
    List.length_replicate
  have decoded : Cell.decodeAll size
      ((List.range size).flatMap fun rank => Cell.encode (values rank)) =
        (List.range size).map values := by
    have back := Cell.decodeAll_encodeAll ((List.range size).map values)
    rwa [List.length_map, List.length_range, Cell.encodeAll, List.flatMap_map] at back
  refine (Collective.settles_map (fun _ => Cell.decodeAll size)
    (Collective.settles_ofAttempt moved)).congr (fun _ _ => rfl) fun _ _ => ?_
  rw [decoded]

theorem settles_barrier : Settles size (fun rank => (barrier (.member rank size)).run)
    fun _ => .ok () := by
  have sized : ∀ rank < size, ((fun _ => [0] : Nat → Bytes) rank).length = 1 := fun _ _ => rfl
  have moved := settles_allgather (fun _ => List.replicate _ 0) sized fun _ _ =>
    List.length_replicate
  refine (Collective.settles_map (fun _ _ => ()) (Collective.settles_ofAttempt moved)).congr
    (fun rank _ => ?_) fun _ _ => rfl
  rw [Nat.mul_one]
  unfold barrier discard
  rw [map_const, Function.comp_apply, map_eq_pure_bind]
  rfl

theorem settles_reduce (values : Nat → Scalar) (how : Nat → Reduction) :
    Settles size (fun rank => (reduce (.member rank size) (values rank) (how rank)).run)
      fun rank => .ok ((how rank).fold ((List.range size).map values)) :=
  Collective.settles_map (fun rank => (how rank).fold) (settles_gather values)

end gather

/-! ## Unanimity -/

section unanimous

variable {α β : Type} {size : Nat}

/-- All ranks come to a value, or all to an error. -/
def Unanimous (size : Nat) (outcomes : Nat → Except VectorError α) : Prop :=
  (∃ values : Nat → α, ∀ rank < size, outcomes rank = .ok (values rank)) ∨
    ∃ errors : Nat → VectorError, ∀ rank < size, outcomes rank = .error (errors rank)

theorem unanimous_ok (values : Nat → α) : Unanimous size fun rank => .ok (values rank) :=
  .inl ⟨values, fun _ _ => rfl⟩

theorem Unanimous.bind {outcomes : Nat → Except VectorError α}
    {g : Nat → α → Except VectorError β} (first : Unanimous size outcomes)
    (second : ∀ values : Nat → α, (∀ rank < size, outcomes rank = .ok (values rank)) →
      Unanimous size fun rank => g rank (values rank)) :
    Unanimous size fun rank => outcomes rank >>= g rank := by
  have through {rank : Nat} {outcome : Except VectorError α} (here : outcomes rank = outcome) :
      outcomes rank >>= g rank = outcome >>= g rank := congrArg (· >>= g rank) here
  rcases first with ⟨values, same⟩ | ⟨errors, stopped⟩
  · rcases second values same with ⟨results, passed⟩ | ⟨errors, stopped⟩
    · exact .inl ⟨results, fun rank inside =>
        (through (same rank inside)).trans (passed rank inside)⟩
    · exact .inr ⟨errors, fun rank inside =>
        (through (same rank inside)).trans (stopped rank inside)⟩
  · exact .inr ⟨errors, fun rank inside => through (stopped rank inside)⟩

/-- Unanimous ranks go on together, or all stop here. -/
theorem settles_bind_unanimous {p : Nat → Collective α} {f : Nat → α → Collective β}
    {outcomes : Nat → Except VectorError α} {g : Nat → α → Except VectorError β}
    (first : Settles size (fun rank => (p rank).run) outcomes)
    (unanimous : Unanimous size outcomes)
    (second : ∀ values : Nat → α, (∀ rank < size, outcomes rank = .ok (values rank)) →
      Settles size (fun rank => (f rank (values rank)).run) fun rank => g rank (values rank)) :
    Settles size (fun rank => (p rank >>= f rank).run) fun rank => outcomes rank >>= g rank := by
  refine Collective.settles_bind first ?_
  rcases unanimous with ⟨values, same⟩ | ⟨errors, stopped⟩
  · refine (second values same).congr (fun rank inside => ?_) fun rank inside => ?_
    · rw [same rank inside]
      rfl
    · rw [same rank inside]
      rfl
  · refine .of_computes fun rank inside => ?_
    rw [stopped rank inside]
    exact Program.computes_done _

end unanimous

/-! ## Outcomes -/

section outcomes

variable {α : Type} (size : Nat) (outcomes : Nat → Except VectorError α)

/-- The ranks on which something failed. -/
def failing : List Nat := (List.range size).filter fun rank => !(outcomes rank).isOk

/-- The outcome is a fatal error. -/
def fails (outcome : Except VectorError α) : Bool :=
  match outcome with
  | .ok _ => false
  | .error e => e.isFatal

def failureClass : ErrorClass :=
  if (List.range size).any fun rank => fails (outcomes rank) then .protocol
  else .invalidArgument

/-- What each rank comes to when the outcomes of all are known. -/
def agreed (operation : String) (rank : Nat) : Except VectorError α :=
  match outcomes rank with
  | .error e => .error e
  | .ok value =>
    if (failing size outcomes).isEmpty then .ok value
    else
      .error (.peerFailed rank operation (failing size outcomes) (failureClass size outcomes))

variable {size outcomes} {operation : String} {rank : Nat}

theorem agreed_congr {others : Nat → Except VectorError α}
    (same : ∀ rank < size, outcomes rank = others rank) (inside : rank < size) :
    agreed size outcomes operation rank = agreed size others operation rank := by
  have failed : failing size outcomes = failing size others :=
    List.filter_congr fun rank member => by rw [same rank (List.mem_range.1 member)]
  have worst : failureClass size outcomes = failureClass size others := by
    have each : (List.range size).any (fun rank => fails (outcomes rank)) =
        (List.range size).any fun rank => fails (others rank) := by
      rw [Bool.eq_iff_iff, List.any_eq_true, List.any_eq_true]
      exact exists_congr fun rank => and_congr_right fun member => by
        rw [same rank (List.mem_range.1 member)]
    rw [failureClass, failureClass, each]
  rw [agreed, agreed, same rank inside, failed, worst]

theorem mem_failing :
    rank ∈ failing size outcomes ↔ rank < size ∧ ∃ e, outcomes rank = .error e := by
  rw [failing, List.mem_filter, List.mem_range]
  cases outcomes rank <;> simp [Except.isOk, Except.toBool]

/-- The class is the worst of those of the errors. -/
theorem failureClass_eq_protocol_iff : failureClass size outcomes = .protocol ↔
    ∃ rank < size, ∃ e, outcomes rank = .error e ∧ e.severity = .protocol := by
  have fatal (rank : Nat) : fails (outcomes rank) = true ↔
      ∃ e, outcomes rank = .error e ∧ e.severity = .protocol := by
    cases outcomes rank <;> simp [fails, VectorError.isFatal]
  have found : (List.range size).any (fun rank => fails (outcomes rank)) = true ↔
      ∃ rank < size, ∃ e, outcomes rank = .error e ∧ e.severity = .protocol := by
    simp only [List.any_eq_true, List.mem_range, fatal]
  rw [← found, failureClass]
  split <;> simp [*]

theorem failing_eq_nil_iff :
    failing size outcomes = [] ↔ ∀ rank < size, ∃ value, outcomes rank = .ok value := by
  rw [List.eq_nil_iff_forall_not_mem]
  refine forall_congr' fun rank => ?_
  rw [mem_failing]
  cases outcomes rank <;> simp

/-- All go on if nothing failed. -/
theorem agreed_ok {values : Nat → α} (passed : ∀ rank < size, outcomes rank = .ok (values rank))
    (inside : rank < size) : agreed size outcomes operation rank = .ok (values rank) := by
  have nothing := failing_eq_nil_iff.2 fun rank inside => ⟨_, passed rank inside⟩
  simp only [agreed, passed rank inside, nothing, List.isEmpty_nil, if_true]

/-- None goes on if anything failed. -/
theorem agreed_error {failed : Nat} (inside : failed < size) {e : VectorError}
    (broken : outcomes failed = .error e) (operation : String) (rank : Nat) :
    ∃ e, agreed size outcomes operation rank = .error e := by
  have some' : failing size outcomes ≠ [] := List.ne_nil_of_mem (mem_failing.2 ⟨inside, e, broken⟩)
  unfold agreed
  cases outcomes rank with
  | error own => exact ⟨own, rfl⟩
  | ok value =>
    exact ⟨_, if_neg (mt List.isEmpty_iff.1 some')⟩

theorem eq_ok_of_agreed {value : α} (passed : agreed size outcomes operation rank = .ok value) :
    outcomes rank = .ok value ∧ failing size outcomes = [] := by
  unfold agreed at passed
  cases own : outcomes rank with
  | error e =>
    rw [own] at passed
    cases passed
  | ok result =>
    rw [own] at passed
    dsimp only at passed
    split at passed
    · rename_i none_failed
      cases passed
      exact ⟨rfl, List.isEmpty_iff.1 none_failed⟩
    · cases passed

theorem failedRanks_statusCode :
    failedRanks ((List.range size).map fun rank => statusCode (outcomes rank)) =
      failing size outcomes := by
  rw [failedRanks, failing, List.length_map, List.length_range]
  refine List.filter_congr fun rank member => ?_
  rw [List.getElem?_map, List.getElem?_range (List.mem_range.1 member), Option.map_some]
  cases outcomes rank with
  | ok value => rfl
  | error e =>
    cases fatal : e.isFatal <;> simp [statusCode, fatal, Except.isOk, Except.toBool]

theorem worstClass_statusCode :
    worstClass ((List.range size).map fun rank => statusCode (outcomes rank)) =
      failureClass size outcomes := by
  have fatal (outcome : Except VectorError α) : (2 == statusCode outcome) = fails outcome := by
    cases outcome with
    | ok value => rfl
    | error e => cases known : e.isFatal <;> simp [statusCode, fails, known]
  simp only [worstClass, failureClass, List.contains_eq_any_beq, List.any_map,
    Function.comp_def, fatal]

/-- Every rank learns how all others fared. -/
theorem settles_agreeOnOutcome {operations : Nat → String} :
    Settles size
      (fun rank => (agreeOnOutcome (.member rank size) (outcomes rank) (operations rank)).run)
      fun rank => agreed size outcomes (operations rank) rank := by
  refine Collective.settles_bind_ok (settles_gather fun rank => statusCode (outcomes rank)) ?_
  refine .of_computes fun rank inside => ?_
  simp only [failedRanks_statusCode, worstClass_statusCode]
  unfold agreed
  cases outcomes rank with
  | error e => exact Program.computes_done _
  | ok value =>
    show Program.Computes (ExceptT.run (if _ then _ else _)) (if _ then _ else _)
    split
    · exact Program.computes_done _
    · exact fun _ _ => rfl

theorem unanimous_agreed (operations : Nat → String) :
    Unanimous size fun rank => agreed size outcomes (operations rank) rank := by
  cases failed : failing size outcomes with
  | nil =>
    have passed := failing_eq_nil_iff.1 failed
    cases size with
    | zero => exact .inr ⟨fun _ => .sizeOverflow, nofun⟩
    | succ size =>
      obtain ⟨some', -⟩ := passed 0 size.succ_pos
      let values (rank : Nat) : α := (outcomes rank).toOption.getD some'
      refine .inl ⟨values, fun rank inside => agreed_ok (fun rank inside => ?_) inside⟩
      obtain ⟨value, here⟩ := passed rank inside
      simp only [values, here]
      rfl
  | cons first rest =>
    have member : first ∈ failing size outcomes := failed ▸ List.mem_cons_self
    obtain ⟨inside, _, broken⟩ := mem_failing.1 member
    have stopped (rank : Nat) := agreed_error inside broken (operations rank) rank
    exact .inr ⟨fun rank => (stopped rank).choose, fun rank _ => (stopped rank).choose_spec⟩

/-- Ranks that agree on an outcome go on together, or all stop here. -/
theorem settles_agreeOnOutcome_bind {β : Type} {f : Nat → α → Collective β}
    {g : Nat → α → Except VectorError β}
    (later : ∀ values : Nat → α, (∀ rank < size, outcomes rank = .ok (values rank)) →
      Settles size (fun rank => (f rank (values rank)).run) fun rank => g rank (values rank)) :
    Settles size
      (fun rank =>
        (agreeOnOutcome (.member rank size) (outcomes rank) operation >>= f rank).run)
      fun rank => agreed size outcomes operation rank >>= g rank :=
  settles_bind_unanimous settles_agreeOnOutcome (unanimous_agreed fun _ => operation)
    fun values same => later values fun rank inside => (eq_ok_of_agreed (same rank inside)).1

end outcomes

end Group

/-! ## Modes -/

namespace QueueMode

/-- No queue is mixed, and all that are not empty hold the same kind of updates. -/
def Agree (modes : List QueueMode) : Prop :=
  ∀ mode ∈ modes, mode ≠ .mixed ∧
    ∀ other ∈ modes, mode ≠ .empty → other ≠ .empty → mode = other

theorem max_empty (mode : QueueMode) : mode.max .empty = mode := by
  cases mode <;> rfl

theorem empty_max (mode : QueueMode) : max .empty mode = mode := by
  cases mode <;> rfl

theorem max_self (mode : QueueMode) : mode.max mode = mode := if_pos (UInt8.le_refl _)

theorem foldl_max_eq {kind : QueueMode} {modes : List QueueMode}
    (uniform : ∀ mode ∈ modes, mode = .empty ∨ mode = kind) : modes.foldl max kind = kind := by
  induction modes with
  | nil => rfl
  | cons mode rest ih =>
    obtain ⟨here, later⟩ := List.forall_mem_cons.1 uniform
    rw [List.foldl_cons]
    rcases here with rfl | rfl
    · rw [max_empty]
      exact ih later
    · rw [max_self]
      exact ih later

theorem greatest_eq {kind : QueueMode} {modes : List QueueMode}
    (uniform : ∀ mode ∈ modes, mode = .empty ∨ mode = kind) (present : kind ∈ modes) :
    greatest modes = kind := by
  unfold greatest
  induction modes with
  | nil => cases present
  | cons mode rest ih =>
    obtain ⟨here, later⟩ := List.forall_mem_cons.1 uniform
    rw [List.foldl_cons, empty_max]
    rcases here with rfl | rfl
    · rcases List.mem_cons.1 present with rfl | member
      · exact foldl_max_eq later
      · exact ih later member
    · exact foldl_max_eq later

theorem max_eq_or (a b : QueueMode) : a.max b = a ∨ a.max b = b := by
  unfold max
  split
  · exact .inr rfl
  · exact .inl rfl

theorem foldl_max_mem (modes : List QueueMode) (start : QueueMode) :
    modes.foldl max start = start ∨ modes.foldl max start ∈ modes := by
  induction modes generalizing start with
  | nil => exact .inl rfl
  | cons first rest ih =>
    rw [List.foldl_cons, List.mem_cons]
    rcases ih (start.max first) with kept | later
    · rw [kept]
      exact (max_eq_or start first).imp_right .inl
    · exact .inr (.inr later)

namespace Agree

variable {modes : List QueueMode}

/-- The mode of the group is that of every queue with anything in it. -/
theorem greatest_eq (agree : Agree modes) {mode : QueueMode} (member : mode ∈ modes)
    (some' : mode ≠ .empty) : greatest modes = mode := by
  refine QueueMode.greatest_eq (fun other present => ?_) member
  by_cases none' : other = .empty
  · exact .inl none'
  · exact .inr ((agree mode member).2 other present some' none').symm

end Agree

end QueueMode

theorem offenders_eq_nil_iff {modes : List QueueMode} :
    offenders modes = [] ↔ QueueMode.Agree modes := by
  have offends : offenders modes = [] ↔ ∀ mode ∈ modes,
      ¬(mode = .mixed ∨ mode ≠ .empty ∧ mode ≠ QueueMode.greatest modes) := by
    unfold offenders
    rw [List.filterMap_eq_nil_iff]
    constructor
    · intro none' mode member
      obtain ⟨rank, inside, here⟩ := List.getElem_of_mem member
      have kept := none' (mode, rank) (List.mk_mem_zipIdx_iff_getElem?.2
        ((List.getElem?_eq_getElem inside).trans (congrArg some here)))
      simpa using kept
    · rintro none' ⟨mode, rank⟩ member
      have present := List.mem_of_getElem? (List.mk_mem_zipIdx_iff_getElem?.1 member)
      exact if_neg (none' mode present)
  rw [offends]
  constructor
  · intro none' mode member
    have greatest : ∀ {mode}, mode ∈ modes → mode ≠ .empty → mode = QueueMode.greatest modes :=
      fun member some' => Decidable.of_not_not fun other => none' _ member (.inr ⟨some', other⟩)
    refine ⟨fun mixed => none' mode member (.inl mixed), fun other present some' someOther => ?_⟩
    exact (greatest member some').trans (greatest present someOther).symm
  · rintro agree mode member (mixed | ⟨some', other⟩)
    · exact (agree mode member).1 mixed
    · exact other (agree.greatest_eq member some').symm

theorem groupMode_code (rank : Nat) (own : QueueMode) (modes : List QueueMode) :
    groupMode rank own (modes.map QueueMode.code) =
      if (offenders modes).isEmpty then .ok (QueueMode.greatest modes)
      else .error (.modeMismatch rank own (QueueMode.greatest modes) (offenders modes)) := by
  have back : (modes.map QueueMode.code).map (fun code => (QueueMode.ofCode? code).getD .mixed) =
      modes := by
    simp [Function.comp_def, QueueMode.ofCode?_code]
  unfold groupMode
  rw [back]

theorem groupMode_eq_ok {modes : List QueueMode} (agree : QueueMode.Agree modes) (rank : Nat)
    (own : QueueMode) :
    groupMode rank own (modes.map QueueMode.code) = .ok (QueueMode.greatest modes) := by
  rw [groupMode_code, offenders_eq_nil_iff.2 agree]
  rfl

theorem groupMode_eq_error {modes : List QueueMode} (disagree : ¬QueueMode.Agree modes)
    (rank : Nat) (own : QueueMode) :
    groupMode rank own (modes.map QueueMode.code) =
      .error (.modeMismatch rank own (QueueMode.greatest modes) (offenders modes)) := by
  rw [groupMode_code]
  exact if_neg fun none' => disagree (offenders_eq_nil_iff.1 (List.isEmpty_iff.1 none'))

theorem Group.settles_agreeOnMode {size : Nat} (modes : Nat → QueueMode) :
    Settles size (fun rank => (agreeOnMode (.member rank size) (modes rank)).run)
      fun rank =>
        groupMode rank (modes rank) (((List.range size).map modes).map QueueMode.code) := by
  refine Collective.settles_bind_ok (settles_gather fun rank => (modes rank).code) ?_
  refine (Settles.done _).congr (fun _ _ => rfl) fun rank _ => ?_
  rw [List.map_map]
  rfl

end HaloVector
