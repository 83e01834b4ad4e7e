import HaloVector.Proofs.Assembling

/-!
# Severity

Errors are fatal or not, and ranks that agree on an outcome tell each other which. A rank
that has not failed itself then ends with the worst of what the others report. But a rank that
has failed ends with its own error, whatever the others report. So a group can come apart: some
ranks end with a fatal error, and others with one after which they may go on.

* `Group.isFatal_of_agreed` says on which ranks the error is fatal.
* `Group.fatal_outcome_spreads`: a fatal outcome of one rank reaches exactly the ranks that have
  not failed in a lesser way, of any agreement and of the agreement inside an assembly.
-/

namespace HaloVector

/-- An error after which the rank may go on. -/
def Recoverable {α : Type} (outcome : Except VectorError α) : Prop :=
  ∃ e, outcome = .error e ∧ e.isFatal = false

namespace Group

section agreed

variable {α : Type} {size : Nat} {outcomes : Nat → Except VectorError α} {operation : String}
  {rank detector : Nat}

/-- Next to a fatal outcome, only a rank's own error can be less than fatal. -/
theorem isFatal_of_agreed (inside : detector < size)
    (fatal : ∃ e, outcomes detector = .error e ∧ e.isFatal) {e : VectorError}
    (came : agreed size outcomes operation rank = .error e) :
    e.isFatal = false ↔ Recoverable (outcomes rank) := by
  unfold agreed at came
  cases own : outcomes rank with
  | error mine =>
    rw [own] at came
    cases came
    exact ⟨fun mild => ⟨e, rfl, mild⟩, fun ⟨_, same, mild⟩ => Except.error.inj same ▸ mild⟩
  | ok value =>
    obtain ⟨worst, broken, severe⟩ := fatal
    have class_eq : failureClass size outcomes = .protocol :=
      failureClass_eq_protocol_iff.2 ⟨detector, inside, worst, broken, of_decide_eq_true severe⟩
    rw [own, class_eq] at came
    dsimp only at came
    split at came
    · cases came
    · cases came
      exact ⟨nofun, fun ⟨_, same, _⟩ => nomatch same⟩

/-- All ranks stop, each with an error of which the severity is known. -/
theorem exists_agreed_errors (inside : detector < size)
    (fatal : ∃ e, outcomes detector = .error e ∧ e.isFatal) (operations : Nat → String) :
    ∃ errors : Nat → VectorError,
      (∀ rank, agreed size outcomes (operations rank) rank = .error (errors rank)) ∧
      ∀ rank, (errors rank).isFatal = false ↔ Recoverable (outcomes rank) := by
  have stopped (rank : Nat) := agreed_error inside fatal.choose_spec.1 (operations rank) rank
  exact ⟨fun rank => (stopped rank).choose, fun rank => (stopped rank).choose_spec,
    fun rank => isFatal_of_agreed inside fatal (stopped rank).choose_spec⟩

end agreed

/-! ## Assemblies -/

section assembly

variable {size : Nat} {extents : Nat → Extents} {values : Nat → List Scalar}
  {queues : Nat → OpQueue}

/-- A rank gets an update from another rank that takes it for the owner, which it is not. -/
def GetsForeign (size : Nat) (extents : Nat → Extents) (queues : Nat → OpQueue) (rank : Nat) :
    Prop :=
  ∃ source < size, source ≠ rank ∧ ∃ update ∈ (queues source).drained.updates,
    (extents source).findOwner update.id = .ok rank ∧
      ¬ ((extents rank).rangeAt rank).contains update.id

/-- The buffer of a rank has fewer entries than the rank owns. -/
def Short (extents : Nat → Extents) (values : Nat → List Scalar) (rank : Nat) : Prop :=
  (values rank).length < ((extents rank).rangeAt rank).length

instance (extents : Nat → Extents) (values : Nat → List Scalar) (rank : Nat) :
    Decidable (Short extents values rank) := inferInstanceAs (Decidable (_ < _))

theorem isFatal_of_inspect {me : Nat} {own : IdRange} {received : List (Nat × Update)}
    {e : VectorError} (refused : inspect me own received = .error e) : e.isFatal := by
  unfold inspect at refused
  split at refused
  · cases refused
    rfl
  · cases refused

/-- In the check of an assembly, only a short buffer is less than fatal. -/
theorem recoverable_checked_iff {drained : Nat → Drained} {rank : Nat} :
    Recoverable (checked size extents values drained rank) ↔ Short extents values rank := by
  unfold checked checkRoom Short
  split
  · rename_i short
    exact ⟨fun _ => short, fun _ => ⟨_, rfl, rfl⟩⟩
  · rename_i room
    refine ⟨fun ⟨e, refused, mild⟩ => ?_, fun short => absurd short room⟩
    have fatal := isFatal_of_inspect refused
    rw [mild] at fatal
    cases fatal

theorem fatal_of_getsForeign {rank : Nat} (foreign : GetsForeign size extents queues rank)
    (room : ¬ Short extents values rank) :
    ∃ e, checked size extents values (fun rank => (queues rank).drained) rank = .error e ∧
      e.isFatal := by
  obtain ⟨source, within, other, update, queued, owner, stranger⟩ := foreign
  have arrives : (source, update) ∈
      arriving size extents (fun rank => (queues rank).drained) rank := by
    refine List.mem_flatMap.2 ⟨source, Topology.mem_peers.2 ⟨within, other⟩, ?_⟩
    exact List.mem_map_of_mem (mem_share.2 ⟨queued, owner⟩)
  rw [checked_of_room (Nat.not_lt.1 room)]
  cases looked : inspected size extents (fun rank => (queues rank).drained) rank with
  | ok incoming => exact absurd ((inspect_eq_ok looked).2 _ arrives) stranger
  | error e => exact ⟨e, rfl, isFatal_of_inspect looked⟩

/-- A queue that gives up updates has a mode. -/
theorem mode_ne_empty_of_mem_drained {queue : OpQueue} {update : Update}
    (queued : update ∈ queue.drained.updates) : queue.mode ≠ .empty := by
  intro none_queued
  rw [OpQueue.drained, none_queued] at queued
  cases queued

theorem checkedTo_eq {mode : QueueMode} {drained : Nat → Drained}
    (agree : QueueMode.Agree (modesOf size drained))
    (known : QueueMode.greatest (modesOf size drained) = mode) (some' : mode ≠ .empty)
    (rank : Nat) :
    checkedTo size extents values drained rank =
      (agreed size (checked size extents values drained) "assembly" rank).map fun _ =>
        applied size extents values drained mode rank := by
  rw [checkedTo, groupMode_eq_ok agree, known]
  exact if_neg some'

end assembly

/-- A fatal outcome of one rank makes all ranks stop. The error of a rank is fatal as well,
unless the rank has failed by itself and its own error is not. In an assembly, a rank that gets
a foreign update has such an outcome, and those that have a short buffer are spared. -/
theorem fatal_outcome_spreads (size : Nat) {detector : Nat} (inside : detector < size) :
    (∀ {α : Type} (outcomes : Nat → Except VectorError α) (operations : Nat → String),
      (∃ e, outcomes detector = .error e ∧ e.isFatal) →
      ∃ errors : Nat → VectorError,
        Settles size
          (fun rank => (agreeOnOutcome (.member rank size) (outcomes rank) (operations rank)).run)
          (fun rank => .error (errors rank)) ∧
        ∀ rank < size, (errors rank).isFatal = false ↔ Recoverable (outcomes rank)) ∧
    ∀ (extents : Nat → Extents) (values : Nat → List Scalar) (queues : Nat → OpQueue)
      (tags : AssemblyTags),
      Addressed size extents (fun rank => (queues rank).drained) →
      QueueMode.Agree ((List.range size).map fun rank => (queues rank).mode) →
      GetsForeign size extents queues detector → ¬ Short extents values detector →
      ∃ errors : Nat → VectorError,
        Settles size
          (fun rank => assemble (.member rank size) (extents rank) (values rank) (queues rank) tags)
          (fun rank => ⟨⟨values rank, .empty⟩, .error (errors rank)⟩) ∧
        ∀ rank < size, (errors rank).isFatal = false ↔ Short extents values rank := by
  refine ⟨fun outcomes operations fatal => ?_,
    fun extents values queues tags addressed agree foreign room => ?_⟩
  · obtain ⟨errors, came, severity⟩ := exists_agreed_errors inside fatal operations
    exact ⟨errors, settles_agreeOnOutcome.congr (fun _ _ => rfl) fun rank _ => came rank,
      fun rank _ => severity rank⟩
  · have fatal := fatal_of_getsForeign foreign room
    obtain ⟨errors, came, severity⟩ := exists_agreed_errors inside fatal fun _ => "assembly"
    have modes : modesOf size (fun rank => (queues rank).drained) =
        (List.range size).map fun rank => (queues rank).mode := by
      simp [modesOf]
    obtain ⟨source, within, -, update, queued, -⟩ := foreign
    have some' : QueueMode.greatest (modesOf size fun rank => (queues rank).drained) ≠ .empty := by
      have active := mode_ne_empty_of_mem_drained queued
      rw [modes, agree.greatest_eq (List.mem_map_of_mem (List.mem_range.2 within)) active]
      exact active
    have settled := (@settles_assembleDrained_checked _ _ values _ addressed tags).map
      fun rank => Assembled.after (values rank)
    refine ⟨errors, settled.congr (fun rank _ => (assemble_eq ..).symm) fun rank _ => ?_,
      fun rank _ => (severity rank).trans recoverable_checked_iff⟩
    rw [checkedTo_eq (modes ▸ agree) rfl some', came rank]
    rfl

/-- The first rank has made a mistake of its own, and the second one has lost a message. -/
def mixedOutcomes : Nat → Except VectorError Unit
  | 0 => .error (.invalidGlobalId 9 5)
  | _ => .error (.commError 0 "lost")

/-- Two ranks that hold different extents. The first takes id `2` for one of the second. -/
def mixedExtents (rank : Nat) : Extents :=
  ⟨[if rank = 0 then 2 else 3, 4], List.cons_ne_nil _ _, by split <;> decide⟩

def mixedQueues : Nat → OpQueue
  | 0 => ⟨[⟨2, .zero⟩], [], false⟩
  | _ => .empty

theorem fatal_outcome_spreads_mixed :
    (∃ errors : Nat → VectorError,
      Settles 2 (fun rank => (agreeOnOutcome (.member rank 2) (mixedOutcomes rank) "test").run)
        (fun rank => .error (errors rank)) ∧
      (errors 0).isFatal = false ∧ (errors 1).isFatal = true) ∧
    ∃ errors : Nat → VectorError,
      Settles 2
        (fun rank => assemble (.member rank 2) (mixedExtents rank) [.zero] (mixedQueues rank)
          default)
        (fun rank => ⟨⟨[.zero], .empty⟩, .error (errors rank)⟩) ∧
      (errors 0).isFatal = false ∧ (errors 1).isFatal = true := by
  obtain ⟨agreement, assembly⟩ := fatal_outcome_spreads 2 (by decide : 1 < 2)
  constructor
  · obtain ⟨errors, settled, severity⟩ := agreement mixedOutcomes (fun _ => "test") ⟨_, rfl, rfl⟩
    refine ⟨errors, settled, (severity 0 (by decide)).2 ⟨_, rfl, rfl⟩, ?_⟩
    refine Bool.not_eq_false _ ▸ fun mild => ?_
    obtain ⟨_, same, spared⟩ := (severity 1 (by decide)).1 mild
    cases same
    cases spared
  · have addressed : Addressed 2 mixedExtents fun rank => (mixedQueues rank).drained := by
      refine ⟨?_, ?_, ?_⟩ <;> decide +kernel
    have foreign : GetsForeign 2 mixedExtents mixedQueues 1 :=
      ⟨0, by decide, by decide, ⟨2, .zero⟩, by decide, by decide, by decide⟩
    obtain ⟨errors, settled, severity⟩ := assembly mixedExtents (fun _ => [.zero]) mixedQueues
      default addressed (offenders_eq_nil_iff.1 (by decide)) foreign (by decide)
    refine ⟨errors, settled, (severity 0 (by decide)).2 (by decide), ?_⟩
    exact Bool.not_eq_false _ ▸ fun mild => absurd ((severity 1 (by decide)).1 mild) (by decide)

end Group
end HaloVector
