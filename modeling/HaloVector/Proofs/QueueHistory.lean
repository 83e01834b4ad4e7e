import Mathlib.Data.List.DropRight
import HaloVector.Proofs.Queueing

/-!
# What a queue has been through

What a queue holds and answers is decided by what was accepted and what was refused since it
was last drained. A refusal stays with the queue until then, although further updates of the
waiting kind are accepted.

* `OpQueue.Recorded` is a queue with all that was done to it.
* `OpQueue.Tracks` ties a queue to these events, and every step keeps it so
  (`OpQueue.Tracks.next`).
* `OpQueue.Account` says what the queue owes to the events, and
  `OpQueue.queue_keeps_account` that it does so after any steps.
-/

namespace HaloVector.OpQueue

/-! ## Events -/

/-- What can be done to a queue. -/
inductive Step
  | push (rank : Nat) (kind : OpKind) (update : Update)
  | drain

/-- What was done to a queue, and what came of it. -/
inductive Event
  | pushed (kind : OpKind) (update : Update) (outcome : Except VectorError Unit)
  | drained (taken : Drained)

namespace Event

def isDrain : Event → Bool
  | pushed .. => false
  | drained _ => true

/-- The operation that was accepted, if one was. -/
def accepted? : Event → Option (OpKind × Update)
  | pushed kind update (.ok ()) => some (kind, update)
  | _ => none

def isRefusal : Event → Bool
  | pushed _ _ (.error _) => true
  | _ => false

end Event

/-- The events after the last drain. -/
def sinceDrain (events : List Event) : List Event := events.rtakeWhile (!·.isDrain)

/-- The operations that were accepted since the last drain, in order. -/
def accepted (events : List Event) : List (OpKind × Update) :=
  (sinceDrain events).filterMap Event.accepted?

/-- Some operation was refused since the last drain. -/
def refused (events : List Event) : Bool := (sinceDrain events).any Event.isRefusal

/-- A queue with all that was done to it. -/
structure Recorded where
  queue : OpQueue
  events : List Event

namespace Recorded

def new : Recorded := ⟨empty, []⟩

def next (r : Recorded) : Step → Recorded
  | .push rank kind update =>
    let attempt := r.queue.push rank kind update
    ⟨attempt.state, r.events ++ [.pushed kind update attempt.outcome]⟩
  | .drain =>
    let (taken, queue) := r.queue.drain
    ⟨queue, r.events ++ [.drained taken]⟩

/-- A new queue after some steps. -/
def after (steps : List Step) : Recorded := steps.foldl next new

end Recorded

section events

variable {events : List Event} {kind : OpKind} {update : Update}

theorem sinceDrain_pushed {outcome : Except VectorError Unit} :
    sinceDrain (events ++ [.pushed kind update outcome]) =
      sinceDrain events ++ [.pushed kind update outcome] :=
  List.rtakeWhile_concat_pos _ _ _ rfl

theorem sinceDrain_drained {taken : Drained} : sinceDrain (events ++ [.drained taken]) = [] :=
  List.rtakeWhile_concat_neg _ _ _ nofun

theorem accepted_ok :
    accepted (events ++ [.pushed kind update (.ok ())]) = accepted events ++ [(kind, update)] := by
  rw [accepted, sinceDrain_pushed, List.filterMap_append]
  rfl

theorem accepted_error {e : VectorError} :
    accepted (events ++ [.pushed kind update (.error e)]) = accepted events := by
  rw [accepted, sinceDrain_pushed, List.filterMap_append]
  exact List.append_nil _

theorem accepted_drained {taken : Drained} : accepted (events ++ [.drained taken]) = [] := by
  rw [accepted, sinceDrain_drained, List.filterMap_nil]

theorem refused_ok : refused (events ++ [.pushed kind update (.ok ())]) = refused events := by
  rw [refused, sinceDrain_pushed, List.any_append]
  exact Bool.or_false _

theorem refused_error {e : VectorError} :
    refused (events ++ [.pushed kind update (.error e)]) = true := by
  rw [refused, sinceDrain_pushed, List.any_append]
  exact Bool.or_true _

theorem refused_drained {taken : Drained} : refused (events ++ [.drained taken]) = false := by
  rw [refused, sinceDrain_drained, List.any_nil]

end events

/-! ## Operations -/

section operations

variable {q : OpQueue} {kind : OpKind}

theorem mem_operations_iff {update : Update} :
    (kind, update) ∈ q.operations ↔ update ∈ q.pending kind := by
  cases kind <;> simp [operations, pending]

theorem length_operations (q : OpQueue) : q.operations.length = q.length := by
  simp [operations, length]

theorem exists_operation_iff :
    (∃ operation ∈ q.operations, operation.1 = kind) ↔ q.pending kind ≠ [] := by
  constructor
  · rintro ⟨⟨_, update⟩, member, rfl⟩
    exact List.ne_nil_of_mem (mem_operations_iff.1 member)
  · intro waiting
    obtain ⟨update, member⟩ := List.exists_mem_of_ne_nil _ waiting
    exact ⟨_, mem_operations_iff.2 member, rfl⟩

/-- Operations keep their order, because none of the other kind is waiting. -/
theorem operations_append (free : q.pending kind.other = []) (updates : List Update) :
    (q.append kind updates).operations = q.operations ++ updates.map (kind, ·) := by
  cases kind with
  | set =>
    have none_added : q.adds = [] := free
    simp [operations, append, none_added]
  | add => simp [operations, append]

variable (oneKind : ∀ kind, q.pending kind ≠ [] → q.pending kind.other = [])
include oneKind

theorem length_pending (waiting : q.pending kind ≠ []) : (q.pending kind).length = q.length := by
  have none_other := oneKind kind waiting
  cases kind with
  | set =>
    have none_added : q.adds = [] := none_other
    simp [pending, length, none_added]
  | add =>
    have none_set : q.sets = [] := none_other
    simp [pending, length, none_set]

theorem kind_eq_of_mem_operations {one other : OpKind × Update} (member : one ∈ q.operations)
    (again : other ∈ q.operations) : one.1 = other.1 := by
  rcases one.1.eq_or_eq_other other.1 with same | apart
  · exact same.symm
  · have none_other := oneKind one.1 (exists_operation_iff.1 ⟨one, member, rfl⟩)
    exact absurd none_other (exists_operation_iff.1 ⟨other, again, apart⟩)

end operations

/-! ## Modes -/

/-- The mode of operations of one kind. -/
def modeOf : List (OpKind × Update) → QueueMode
  | [] => .empty
  | (kind, _) :: _ => kind.mode

section modes

variable {q : OpQueue}

theorem mode_of_unmixed (oneKind : ∀ kind, q.pending kind ≠ [] → q.pending kind.other = [])
    (unmixed : q.mixed = false) : q.mode = modeOf q.operations := by
  obtain ⟨sets, adds, _⟩ := q
  cases unmixed
  cases sets with
  | nil => cases adds <;> rfl
  | cons update rest =>
    obtain rfl : adds = [] := oneKind .set (List.cons_ne_nil update rest)
    rfl

theorem modeOf_ne_mixed (operations : List (OpKind × Update)) : modeOf operations ≠ .mixed := by
  match operations with
  | [] => nofun
  | (.set, _) :: _ => nofun
  | (.add, _) :: _ => nofun

theorem modeOf_eq_empty_iff {operations : List (OpKind × Update)} :
    modeOf operations = .empty ↔ operations = [] := by
  match operations with
  | [] => exact iff_of_true rfl rfl
  | (.set, _) :: _ => exact iff_of_false nofun nofun
  | (.add, _) :: _ => exact iff_of_false nofun nofun

end modes

/-! ## Tracking -/

/-- A queue holds what was accepted since the last drain, and knows whether something was
refused. -/
structure Tracks (q : OpQueue) (events : List Event) : Prop where
  operations : q.operations = accepted events
  oneKind : ∀ kind, q.pending kind ≠ [] → q.pending kind.other = []
  mixed : q.mixed = refused events
  /-- What led to a refusal is still waiting. -/
  waiting : refused events → accepted events ≠ []

theorem tracks_new : Recorded.new.queue.Tracks Recorded.new.events where
  operations := rfl
  oneKind kind _ := by
    cases kind <;> rfl
  mixed := rfl
  waiting := nofun

theorem Tracks.next {r : Recorded} (tracks : r.queue.Tracks r.events) (step : Step) :
    (r.next step).queue.Tracks (r.next step).events := by
  obtain ⟨q, events⟩ := r
  cases step with
  | push rank kind update =>
    by_cases free : q.pending kind.other = []
    · simp only [Recorded.next, push_of_free free]
      refine ⟨?_, oneKind_append free, ?_, ?_⟩
      · rw [operations_append free, tracks.operations, accepted_ok]
        rfl
      · rw [refused_ok, ← tracks.mixed]
        cases kind <;> rfl
      · rw [refused_ok, accepted_ok]
        exact fun _ => List.concat_ne_nil _ _
    · simp only [Recorded.next, push_of_waiting free]
      refine ⟨?_, tracks.oneKind, ?_, ?_⟩
      · rw [accepted_error, ← tracks.operations]
        rfl
      · rw [refused_error]
      · rw [accepted_error, ← tracks.operations]
        obtain ⟨operation, member, -⟩ := exists_operation_iff.2 free
        exact fun _ => List.ne_nil_of_mem member
  | drain =>
    refine ⟨accepted_drained.symm, tracks_new.oneKind, refused_drained.symm, fun again => ?_⟩
    cases refused_drained.symm.trans again

theorem tracks_after (steps : List Step) :
    (Recorded.after steps).queue.Tracks (Recorded.after steps).events := by
  suffices kept : ∀ r : Recorded, r.queue.Tracks r.events →
      (steps.foldl Recorded.next r).queue.Tracks (steps.foldl Recorded.next r).events from
    kept _ tracks_new
  induction steps with
  | nil => exact fun _ tracks => tracks
  | cons step rest ih => exact fun r tracks => ih _ (tracks.next step)

/-! ## Accounts -/

/-- What a queue owes to the operations that were accepted since the last drain, and to the
fact that some were refused. -/
structure Account (q : OpQueue) (accepted : List (OpKind × Update)) (refused : Prop) : Prop where
  oneKind : ∀ one ∈ accepted, ∀ other ∈ accepted, one.1 = other.1
  oneQueue : q.sets = [] ∨ q.adds = []
  refuses_iff : ∀ rank kind update, (∃ e, (q.push rank kind update).outcome = .error e) ↔
    ∃ operation ∈ accepted, operation.1 = kind.other
  refusal : ∀ rank kind update e, (q.push rank kind update).outcome = .error e →
    e = .mixedOperationModes rank kind.mode kind.other.mode accepted.length ∧
      (q.push rank kind update).state = { q with mixed := true }
  length : q.length = accepted.length
  mixed_iff : q.mode = .mixed ↔ refused
  mode : ¬refused → q.mode = modeOf accepted
  isEmpty_iff : q.isEmpty ↔ q.mode = .empty
  drain_mixed : q.mode = .mixed → q.drain = (⟨.mixed, []⟩, empty)
  drain : q.mode ≠ .mixed → q.drain = (⟨q.mode, accepted.map Prod.snd⟩, empty)

section account

variable {q : OpQueue} {events : List Event} (tracks : q.Tracks events)
include tracks

theorem Tracks.mode_eq_mixed_iff : q.mode = .mixed ↔ refused events := by
  rw [← tracks.mixed]
  constructor
  · intro mixed
    by_contra unmixed
    rw [Bool.not_eq_true] at unmixed
    exact modeOf_ne_mixed _ ((mode_of_unmixed tracks.oneKind unmixed).symm.trans mixed)
  · exact fun mixed => if_pos mixed

theorem Tracks.mode_eq (unrefused : ¬refused events) : q.mode = modeOf (accepted events) := by
  rw [← tracks.operations]
  refine mode_of_unmixed tracks.oneKind ?_
  rw [tracks.mixed, ← Bool.not_eq_true]
  exact unrefused

theorem Tracks.isEmpty_iff : q.isEmpty ↔ q.mode = .empty := by
  rw [isEmpty, decide_eq_true_iff, ← length_operations, tracks.operations,
    List.length_eq_zero_iff]
  by_cases some_refused : refused events
  · rw [tracks.mode_eq_mixed_iff.2 some_refused]
    exact iff_of_false (tracks.waiting some_refused) nofun
  · rw [tracks.mode_eq some_refused, modeOf_eq_empty_iff]

theorem Tracks.refusal {rank : Nat} {kind : OpKind} {update : Update}
    (waiting : q.pending kind.other ≠ []) :
    q.push rank kind update =
      ⟨{ q with mixed := true },
        .error (.mixedOperationModes rank kind.mode kind.other.mode (accepted events).length)⟩ := by
  rw [push_of_waiting waiting, length_pending tracks.oneKind waiting, ← tracks.operations,
    length_operations]

theorem Tracks.account : q.Account (accepted events) (refused events) where
  oneKind one member other again := by
    rw [← tracks.operations] at member again
    exact kind_eq_of_mem_operations tracks.oneKind member again
  oneQueue := by
    by_cases some_set : q.sets = []
    · exact .inl some_set
    · exact .inr (tracks.oneKind .set some_set)
  refuses_iff rank kind update := by
    rw [← tracks.operations, exists_operation_iff]
    by_cases free : q.pending kind.other = []
    · rw [push_of_free free]
      exact iff_of_false nofun (absurd free ·)
    · rw [push_of_waiting free]
      exact iff_of_true ⟨_, rfl⟩ free
  refusal rank kind update e came := by
    by_cases free : q.pending kind.other = []
    · rw [push_of_free free] at came
      cases came
    · rw [tracks.refusal free] at came ⊢
      cases came
      exact ⟨rfl, rfl⟩
  length := by
    rw [← tracks.operations, length_operations]
  mixed_iff := tracks.mode_eq_mixed_iff
  mode := tracks.mode_eq
  isEmpty_iff := tracks.isEmpty_iff
  drain_mixed mixed := by
    rw [OpQueue.drain, drained, mixed]
  drain unmixed := by
    have taken : q.drained = ⟨q.drained.mode, q.drained.updates⟩ := rfl
    rw [OpQueue.drain, taken, drained_mode, (drained_eq tracks.oneKind unmixed).1,
      tracks.operations]

end account

/-- After any pushes and drains a queue holds what was accepted since the last drain, refuses
exactly what is of the other kind, and is mixed exactly if it refused something since then. -/
theorem queue_keeps_account (steps : List Step) :
    (Recorded.after steps).queue.Account (accepted (Recorded.after steps).events)
      (refused (Recorded.after steps).events) :=
  (tracks_after steps).account

theorem queue_keeps_account_mixed :
    let q := (Recorded.after [.push 2 .set ⟨0, .one⟩, .drain, .push 2 .add ⟨3, .one⟩,
      .push 2 .set ⟨0, .one⟩, .push 2 .add ⟨1, .one⟩]).queue
    q.mode = .mixed ∧ q.length = 2 ∧ q.drain = (⟨.mixed, []⟩, empty) ∧
      (q.push 2 .set ⟨0, .one⟩).state = { q with mixed := true } := by
  intro q
  have account := queue_keeps_account [.push 2 .set ⟨0, .one⟩, .drain, .push 2 .add ⟨3, .one⟩,
    .push 2 .set ⟨0, .one⟩, .push 2 .add ⟨1, .one⟩]
  have mixed : q.mode = .mixed := account.mixed_iff.2 rfl
  exact ⟨mixed, account.length, account.drain_mixed mixed, (account.refusal 2 .set _ _ rfl).2⟩

end HaloVector.OpQueue
