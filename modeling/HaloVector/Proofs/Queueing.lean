import HaloVector.DistributedVector
import HaloVector.Proofs.Checks

/-!
# Queueing

What calls make of the queue of a shard. However many calls there were, and whatever
they were refused for, the queue is sound (`Shard.afterCalls_eq`): every id in it has an
owner, and it holds sets or adds, never both. So what waits is one list of operations,
in the order of queueing, and a drain takes all of it (`OpQueue.drained_eq`).
-/

namespace HaloVector

theorem OpKind.eq_or_eq_other (kind other : OpKind) : other = kind ∨ other = kind.other := by
  cases kind <;> cases other <;> decide

/-! ## Queues -/

namespace OpQueue

/-- What the calls keep true of a queue over ids below `limit`. -/
structure Sound (limit : UInt64) (q : OpQueue) : Prop where
  known : ∀ kind, ∀ update ∈ q.pending kind, update.id < limit
  oneKind : ∀ kind, q.pending kind ≠ [] → q.pending kind.other = []

/-- All waiting updates with their kinds. -/
def operations (q : OpQueue) : List (OpKind × Update) :=
  q.sets.map (.set, ·) ++ q.adds.map (.add, ·)

/-- The records of all waiting updates fit into one buffer. -/
def Addressable (q : OpQueue) : Prop := q.length * Update.recordSize ≤ lastIndex

instance (q : OpQueue) : Decidable q.Addressable := inferInstanceAs (Decidable (_ ≤ _))

variable {limit : UInt64} {q : OpQueue}

theorem sound_empty (limit : UInt64) : empty.Sound limit where
  known kind update member := by
    cases kind <;> cases member
  oneKind kind _ := by
    cases kind <;> rfl

theorem pending_append_other {kind : OpKind} {updates : List Update} :
    (q.append kind updates).pending kind.other = q.pending kind.other := by
  cases kind <;> rfl

theorem push_of_free {kind : OpKind} (free : q.pending kind.other = []) (rank : Nat)
    (update : Update) : q.push rank kind update = ⟨q.append kind [update], .ok ()⟩ :=
  if_pos (List.isEmpty_iff.2 free)

theorem push_of_waiting {kind : OpKind} (waiting : q.pending kind.other ≠ []) (rank : Nat)
    (update : Update) :
    q.push rank kind update =
      ⟨{ q with mixed := true },
        .error (.mixedOperationModes rank kind.mode kind.other.mode
          (q.pending kind.other).length)⟩ :=
  if_neg fun free => waiting (List.isEmpty_iff.1 free)

/-- If nothing of the other kind is waiting, one kind stays the only one. -/
theorem oneKind_append {kind : OpKind} {updates : List Update}
    (free : q.pending kind.other = []) (other : OpKind)
    (waiting : (q.append kind updates).pending other ≠ []) :
    (q.append kind updates).pending other.other = [] := by
  rcases kind.eq_or_eq_other other with rfl | rfl
  · rw [pending_append_other, free]
  · exact absurd (pending_append_other.trans free) waiting

theorem Sound.push (sound : q.Sound limit) {update : Update} (known : update.id < limit)
    (rank : Nat) (kind : OpKind) : (q.push rank kind update).state.Sound limit := by
  by_cases free : q.pending kind.other = []
  · rw [push_of_free free]
    refine ⟨?_, oneKind_append free⟩
    intro other waiting member
    rcases kind.eq_or_eq_other other with rfl | rfl
    · rw [pending_append] at member
      rcases List.mem_append.1 member with before | new
      · exact sound.known _ waiting before
      · exact List.mem_singleton.1 new ▸ known
    · rw [pending_append_other, free] at member
      cases member
  · rw [push_of_waiting free]
    exact ⟨sound.known, sound.oneKind⟩

theorem Sound.pushAll (sound : q.Sound limit) {updates : List Update}
    (known : ∀ update ∈ updates, update.id < limit) (rank : Nat) (kind : OpKind) :
    (q.pushAll rank kind updates).state.Sound limit := by
  induction updates generalizing q with
  | nil => exact sound
  | cons update rest ih =>
    obtain ⟨here, later⟩ := List.forall_mem_cons.1 known
    have first := sound.push here rank kind
    unfold OpQueue.pushAll
    dsimp only
    split
    · exact ih first later
    · exact first

/-- A drain takes everything, and all of it is of one kind, unless the queue is mixed. -/
theorem drained_eq (oneKind : ∀ kind, q.pending kind ≠ [] → q.pending kind.other = [])
    (unmixed : q.mode ≠ .mixed) :
    q.drained.updates = q.operations.map Prod.snd ∧
      ∀ operation ∈ q.operations, operation.1.mode = q.mode := by
  obtain ⟨sets, adds, mixed⟩ := q
  cases mixed with
  | true => exact absurd rfl unmixed
  | false =>
    cases sets with
    | nil =>
      cases adds with
      | nil => exact ⟨rfl, nofun⟩
      | cons update rest =>
        constructor
        · show update :: rest = (List.map (OpKind.add, ·) (update :: rest)).map Prod.snd
          rw [List.map_map]
          exact (List.map_id _).symm
        · intro operation member
          obtain ⟨_, _, rfl⟩ := List.mem_map.1 member
          rfl
    | cons update rest =>
      obtain rfl : adds = [] := oneKind .set (List.cons_ne_nil update rest)
      constructor
      · show update :: rest = (List.map (OpKind.set, ·) (update :: rest) ++ []).map Prod.snd
        rw [List.append_nil, List.map_map]
        exact (List.map_id _).symm
      · intro operation member
        rw [operations, List.map_nil, List.append_nil] at member
        obtain ⟨_, _, rfl⟩ := List.mem_map.1 member
        rfl

theorem Sound.drained_eq (sound : q.Sound limit) (unmixed : q.mode ≠ .mixed) :
    q.drained.updates = q.operations.map Prod.snd ∧
      ∀ operation ∈ q.operations, operation.1.mode = q.mode :=
  OpQueue.drained_eq sound.oneKind unmixed

theorem Sound.known_of_drained (sound : q.Sound limit) :
    ∀ update ∈ q.drained.updates, update.id < limit := by
  unfold drained
  split
  · exact sound.known .set
  · exact sound.known .add
  · exact fun _ member => nomatch member

theorem length_drained_le (q : OpQueue) : q.drained.updates.length ≤ q.length := by
  unfold drained length
  split
  · exact Nat.le_add_right _ _
  · exact Nat.le_add_left _ _
  · exact Nat.zero_le _

end OpQueue

/-! ## Calls -/

/-- A call that queues updates: one of them, or one for each of some ids. -/
inductive QueueCall
  | one (kind : OpKind) (update : Update)
  | batch (kind : OpKind) (ids : List UInt64) (values : List Scalar)

def QueueCall.run (s : Shard) : QueueCall → Attempt Shard
  | one kind update => s.enqueue kind update
  | batch kind ids values => s.enqueueAll kind ids values

namespace Shard

/-- The shard after some calls, whatever became of them. -/
def afterCalls (s : Shard) (calls : List QueueCall) : Shard :=
  calls.foldl (fun s call => (call.run s).state) s

variable {s : Shard}

theorem lt_of_checkId {id : UInt64} (passed : s.checkId id = .ok ()) : id < s.globalSize := by
  unfold checkId at passed
  split at passed
  · assumption
  · cases passed

theorem ids_of_checked {ids : List UInt64} {values : List Scalar}
    (passed : (do
      if ids.length ≠ values.length then
        throw (.lengthMismatch "batched values" ids.length values.length)
      ids.forM s.checkId : Except VectorError Unit) = .ok ()) : ids.forM s.checkId = .ok () := by
  by_cases short : ids.length ≠ values.length
  · rw [if_pos short] at passed
    cases passed
  · rw [if_neg short] at passed
    exact passed

theorem id_of_zipWith {ids : List UInt64} {values : List Scalar} {update : Update}
    (member : update ∈ List.zipWith Update.mk ids values) : update.id ∈ ids := by
  induction ids generalizing values with
  | nil => cases member
  | cons id rest ih =>
    cases values with
    | nil => cases member
    | cons value later =>
      rcases List.mem_cons.1 member with rfl | further
      · exact List.mem_cons_self
      · exact List.mem_cons_of_mem id (ih further)

/-- A call changes nothing but the queue, and leaves it sound. -/
theorem run_eq (sound : s.queue.Sound s.globalSize) (call : QueueCall) :
    ∃ queue, (call.run s).state = { s with queue } ∧ queue.Sound s.globalSize := by
  cases call with
  | one kind update =>
    unfold QueueCall.run enqueue
    dsimp only
    split
    · exact ⟨s.queue, rfl, sound⟩
    · rename_i passed
      exact ⟨_, rfl, sound.push (lt_of_checkId passed) s.topology.rank kind⟩
  | batch kind ids values =>
    unfold QueueCall.run enqueueAll
    dsimp only
    split
    · exact ⟨s.queue, rfl, sound⟩
    · rename_i passed
      refine ⟨_, rfl, sound.pushAll (fun update member => ?_) s.topology.rank kind⟩
      exact lt_of_checkId (forM_eq_ok_iff.1 (ids_of_checked passed) _ (id_of_zipWith member))

theorem afterCalls_eq (sound : s.queue.Sound s.globalSize) (calls : List QueueCall) :
    ∃ queue, s.afterCalls calls = { s with queue } ∧ queue.Sound s.globalSize := by
  induction calls generalizing s with
  | nil => exact ⟨s.queue, rfl, sound⟩
  | cons call rest ih =>
    obtain ⟨first, same, held⟩ := run_eq sound call
    show ∃ queue, (call.run s).state.afterCalls rest = _ ∧ _
    rw [same]
    exact ih (s := { s with queue := first }) held

end Shard

end HaloVector
