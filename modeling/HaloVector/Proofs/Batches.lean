import HaloVector.Proofs.QueueHistory

/-!
# Batches

A batch of updates is queued as a whole or not at all. All ids are checked before the first
update is queued. After that only the first can be refused, since a queue that takes one update
of a kind takes more of it.

* `Shard.Batched` lists what may become of a batch, and why. `Shard.batched_enqueueAll` says that
  nothing else does.
* `Shard.enqueueEach_eq_enqueueAll`: a batch that was queued leaves what its updates leave if they
  are queued one by one.
-/

namespace HaloVector

/-! ## Queues -/

namespace OpQueue

variable {q : OpQueue} {kind : OpKind}

theorem append_nil (q : OpQueue) (kind : OpKind) : q.append kind [] = q := by
  cases kind <;> simp [append]

theorem append_append (first second : List Update) :
    (q.append kind first).append kind second = q.append kind (first ++ second) := by
  cases kind <;> simp [append]

theorem pushAll_of_free (free : q.pending kind.other = []) (rank : Nat) (updates : List Update) :
    q.pushAll rank kind updates = ⟨q.append kind updates, .ok ()⟩ := by
  induction updates generalizing q with
  | nil =>
    rw [append_nil]
    rfl
  | cons update rest ih =>
    rw [pushAll, push_of_free free]
    show (q.append kind [update]).pushAll rank kind rest = _
    rw [ih (pending_append_other.trans free), append_append, List.singleton_append]

theorem pushAll_of_waiting (waiting : q.pending kind.other ≠ []) (rank : Nat)
    {updates : List Update} (populated : updates ≠ []) :
    q.pushAll rank kind updates =
      ⟨{ q with mixed := true },
        .error (.mixedOperationModes rank kind.mode kind.other.mode
          (q.pending kind.other).length)⟩ := by
  obtain ⟨update, rest, rfl⟩ := List.exists_cons_of_ne_nil populated
  rw [pushAll, push_of_waiting waiting]

end OpQueue

namespace Shard

variable {s : Shard} {kind : OpKind} {ids : List UInt64} {values : List Scalar}

/-! ## Checks -/

theorem checkId_of_lt {id : UInt64} (known : id < s.globalSize) : s.checkId id = .ok () :=
  if_pos known

theorem checkId_of_beyond {id : UInt64} (beyond : s.globalSize ≤ id) :
    s.checkId id = .error (.invalidGlobalId id s.globalSize) := if_neg (UInt64.not_lt.2 beyond)

/-- Ids are checked in order, and the first that is not known is reported. -/
theorem forM_checkId_of_beyond {before after : List UInt64} {id : UInt64}
    (known : ∀ earlier ∈ before, earlier < s.globalSize) (beyond : s.globalSize ≤ id) :
    (before ++ id :: after).forM s.checkId = .error (.invalidGlobalId id s.globalSize) := by
  induction before with
  | nil =>
    show (s.checkId id >>= fun _ => after.forM s.checkId) = _
    rw [checkId_of_beyond beyond]
    rfl
  | cons first rest ih =>
    obtain ⟨here, later⟩ := List.forall_mem_cons.1 known
    show (s.checkId first >>= fun _ => (rest ++ id :: after).forM s.checkId) = _
    rw [checkId_of_lt here]
    exact ih later

theorem exists_first_beyond {limit : UInt64} (unknown : ¬∀ id ∈ ids, id < limit) :
    ∃ before id after, ids = before ++ id :: after ∧
      (∀ earlier ∈ before, earlier < limit) ∧ limit ≤ id := by
  have some_beyond : (ids.find? (limit ≤ ·)).isSome := by
    rw [List.find?_isSome]
    simpa using unknown
  obtain ⟨id, found⟩ := Option.isSome_iff_exists.1 some_beyond
  obtain ⟨beyond, before, after, split, known⟩ := List.find?_eq_some_iff_append.1 found
  exact ⟨before, id, after, split, by simpa using known, of_decide_eq_true beyond⟩

theorem enqueueAll_of_unpaired (unpaired : ids.length ≠ values.length) :
    s.enqueueAll kind ids values =
      ⟨s, .error (.lengthMismatch "batched values" ids.length values.length)⟩ := by
  unfold enqueueAll
  rw [if_pos unpaired]
  rfl

/-- With a value for each id, all that is left to check are the ids. -/
theorem enqueueAll_of_paired (paired : ids.length = values.length) :
    s.enqueueAll kind ids values =
      match ids.forM s.checkId with
      | .error refusal => ⟨s, .error refusal⟩
      | .ok () =>
        s.withQueue
          (s.queue.pushAll s.topology.rank kind (List.zipWith Update.mk ids values)) := by
  unfold enqueueAll
  rw [if_neg (not_not_intro paired)]
  rfl

theorem enqueueAll_of_known (paired : ids.length = values.length)
    (known : ∀ id ∈ ids, id < s.globalSize) :
    s.enqueueAll kind ids values =
      s.withQueue (s.queue.pushAll s.topology.rank kind (List.zipWith Update.mk ids values)) := by
  have passed : ids.forM s.checkId = .ok () :=
    forM_eq_ok_iff.2 fun id member => checkId_of_lt (known id member)
  rw [enqueueAll_of_paired paired, passed]

/-! ## Verdicts -/

/-- What may become of a batch of values for some ids. -/
inductive Batched (s : Shard) (kind : OpKind) (ids : List UInt64) (values : List Scalar) :
    Attempt Shard → Prop
  | queued (paired : ids.length = values.length) (known : ∀ id ∈ ids, id < s.globalSize)
    (free : ids ≠ [] → s.queue.pending kind.other = []) :
    Batched s kind ids values
      ⟨{ s with queue := s.queue.append kind (List.zipWith Update.mk ids values) }, .ok ()⟩
  | unpaired (unpaired : ids.length ≠ values.length) :
    Batched s kind ids values
      ⟨s, .error (.lengthMismatch "batched values" ids.length values.length)⟩
  /-- The first id that no rank owns is reported. -/
  | unknown {before after : List UInt64} {id : UInt64} (paired : ids.length = values.length)
    (split : ids = before ++ id :: after) (known : ∀ earlier ∈ before, earlier < s.globalSize)
    (beyond : s.globalSize ≤ id) :
    Batched s kind ids values ⟨s, .error (.invalidGlobalId id s.globalSize)⟩
  | conflict (paired : ids.length = values.length) (known : ∀ id ∈ ids, id < s.globalSize)
    (populated : ids ≠ []) (waiting : s.queue.pending kind.other ≠ [])
    (mixed : ({ s.queue with mixed := true } : OpQueue).mode = .mixed) :
    Batched s kind ids values
      ⟨{ s with queue := { s.queue with mixed := true } },
        .error (.mixedOperationModes s.topology.rank kind.mode kind.other.mode
          (s.queue.pending kind.other).length)⟩

theorem batched_enqueueAll (s : Shard) (kind : OpKind) (ids : List UInt64)
    (values : List Scalar) : s.Batched kind ids values (s.enqueueAll kind ids values) := by
  by_cases paired : ids.length = values.length
  · by_cases known : ∀ id ∈ ids, id < s.globalSize
    · rw [enqueueAll_of_known paired known]
      by_cases free : s.queue.pending kind.other = []
      · rw [OpQueue.pushAll_of_free free]
        exact .queued paired known fun _ => free
      · by_cases populated : ids = []
        · subst populated
          have same : s.Batched kind [] values
              ⟨{ s with queue := s.queue.append kind [] }, .ok ()⟩ :=
            .queued paired known (absurd rfl)
          rwa [OpQueue.append_nil] at same
        · have updates : List.zipWith Update.mk ids values ≠ [] := by
            rw [← List.length_pos_iff, List.length_zipWith, ← paired, Nat.min_self]
            exact List.length_pos_iff.2 populated
          rw [OpQueue.pushAll_of_waiting free _ updates]
          exact .conflict paired known populated free rfl
    · obtain ⟨before, id, after, split, first, beyond⟩ := exists_first_beyond known
      have refused : ids.forM s.checkId = _ := split ▸ forM_checkId_of_beyond first beyond
      rw [enqueueAll_of_paired paired, refused]
      exact .unknown paired split first beyond
  · rw [enqueueAll_of_unpaired paired]
    exact .unpaired paired

section verdicts

variable {attempt : Attempt Shard} (batched : s.Batched kind ids values attempt)
include batched

/-- A batch that is queued comes after all that was queued before. -/
theorem Batched.operations_of_ok (queued : attempt.outcome = .ok ()) :
    attempt.state.queue.operations =
      s.queue.operations ++ (List.zipWith Update.mk ids values).map (kind, ·) := by
  cases batched with
  | queued paired known free =>
    by_cases populated : ids = []
    · subst populated
      rw [List.zipWith_nil_left, OpQueue.append_nil, List.map_nil, List.append_nil]
    · exact OpQueue.operations_append (free populated) _
  | unpaired | unknown | conflict => cases queued

theorem Batched.operations_of_error {e : VectorError} (refused : attempt.outcome = .error e) :
    attempt.state.queue.operations = s.queue.operations := by
  cases batched with
  | queued => cases refused
  | unpaired | unknown | conflict => rfl

end verdicts

/-! ## One by one -/

/-- Queues updates one after the other, up to the first that is refused. -/
def enqueueEach (s : Shard) (kind : OpKind) : List Update → Attempt Shard
  | [] => ⟨s, .ok ()⟩
  | update :: rest =>
    let first := s.enqueue kind update
    match first.outcome with
    | .ok () => first.state.enqueueEach kind rest
    | .error _ => first

theorem enqueueEach_of_known {updates : List Update} (free : s.queue.pending kind.other = [])
    (known : ∀ update ∈ updates, update.id < s.globalSize) :
    s.enqueueEach kind updates = ⟨{ s with queue := s.queue.append kind updates }, .ok ()⟩ := by
  induction updates generalizing s with
  | nil =>
    rw [OpQueue.append_nil]
    rfl
  | cons update rest ih =>
    obtain ⟨here, later⟩ := List.forall_mem_cons.1 known
    have first : s.enqueue kind update =
        ⟨{ s with queue := s.queue.append kind [update] }, .ok ()⟩ := by
      rw [enqueue, checkId_of_lt here]
      show s.withQueue _ = _
      rw [OpQueue.push_of_free free]
      rfl
    rw [enqueueEach, first]
    have onward := ih (s := { s with queue := s.queue.append kind [update] })
      (OpQueue.pending_append_other.trans free) later
    rwa [OpQueue.append_append, List.singleton_append] at onward

theorem enqueueEach_eq_enqueueAll (queued : (s.enqueueAll kind ids values).outcome = .ok ()) :
    s.enqueueEach kind (List.zipWith Update.mk ids values) = s.enqueueAll kind ids values := by
  have batched := s.batched_enqueueAll kind ids values
  generalize s.enqueueAll kind ids values = attempt at batched queued
  cases batched with
  | queued paired known free =>
    by_cases populated : ids = []
    · subst populated
      rw [List.zipWith_nil_left, OpQueue.append_nil]
      rfl
    · exact enqueueEach_of_known (free populated) fun update member =>
        known _ (id_of_zipWith member)
  | unpaired | unknown | conflict => cases queued

end Shard

end HaloVector
