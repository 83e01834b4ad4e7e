import HaloVector.Proofs.SafeCalls

/-!
# Calls on vectors

Calls that work on a vector are safe (`Call.Safe`), too. No such call reads the tags of a
vector, apart from sending under them, or changes its extents. So the vector stays linked
(`linked_withShard`), and its tags stay a label on it (`VectorPart.afterCalls_label`,
`VectorPart.afterAssembly_label`).
-/

namespace HaloVector

/-! ## Queues under labels -/

namespace OpQueue

theorem length_push_le (q : OpQueue) (rank : Nat) (kind : OpKind) (update : Update) :
    (q.push rank kind update).state.length ≤ q.length + 1 := by
  by_cases free : q.pending kind.other = []
  · rw [push_of_free free]
    exact Nat.le_of_eq (length_append q kind [update])
  · rw [push_of_waiting free]
    exact Nat.le_succ q.length

theorem length_pushAll_le (q : OpQueue) (rank : Nat) (kind : OpKind) (updates : List Update) :
    (q.pushAll rank kind updates).state.length ≤ q.length + updates.length := by
  induction updates generalizing q with
  | nil => exact Nat.le_refl _
  | cons update rest ih =>
    have first := q.length_push_le rank kind update
    unfold pushAll
    dsimp only
    rw [List.length_cons]
    split
    · have later := ih (q.push rank kind update).state
      omega
    · omega

end OpQueue

namespace Shard

variable (s : Shard)

theorem length_run_le (call : QueueCall) :
    (call.run s).state.queue.length ≤ s.queue.length + call.length := by
  cases call with
  | one kind update =>
    unfold QueueCall.run enqueue
    dsimp only
    split
    · exact Nat.le_add_right _ _
    · exact s.queue.length_push_le _ kind update
  | batch kind ids values =>
    unfold QueueCall.run enqueueAll
    dsimp only
    split
    · exact Nat.le_add_right _ _
    · refine Nat.le_trans (s.queue.length_pushAll_le _ kind _) (Nat.add_le_add_left ?_ _)
      rw [List.length_zipWith]
      exact Nat.min_le_left _ _

theorem length_afterCalls_le (calls : List QueueCall) :
    (s.afterCalls calls).queue.length ≤
      s.queue.length + totalCount (calls.map QueueCall.length) := by
  induction calls generalizing s with
  | nil => exact Nat.le_refl _
  | cons call rest ih =>
    have first := s.length_run_le call
    have later := ih (call.run s).state
    rw [List.map_cons, totalCount]
    exact Nat.le_trans later (by omega)

theorem run_withTags (tags : VectorTags) (call : QueueCall) :
    (call.run { s with tags }).state = { (call.run s).state with tags } := by
  have same : ({ s with tags } : Shard).checkId = s.checkId := rfl
  cases call with
  | one kind update =>
    unfold QueueCall.run enqueue
    dsimp only
    rw [same]
    split
    · rfl
    · rfl
  | batch kind ids values =>
    unfold QueueCall.run enqueueAll
    dsimp only
    rw [same]
    split
    · rfl
    · rfl

theorem afterCalls_withTags (tags : VectorTags) (calls : List QueueCall) :
    { s with tags }.afterCalls calls = { s.afterCalls calls with tags } := by
  induction calls generalizing s with
  | nil => rfl
  | cons call rest ih =>
    show ((call.run { s with tags }).state).afterCalls rest = _
    rw [run_withTags]
    exact ih _

end Shard

namespace VectorPart

theorem afterCalls_label (l : Labels) (part : VectorPart) (calls : List QueueCall) :
    (part.label l).afterCalls calls = (part.afterCalls calls).label l := by
  unfold afterCalls
  rw [shard_label, Shard.afterCalls_withTags, withShard_label]

/-- Assemblies of the same part under different labels differ in the label only. -/
theorem afterAssembly_label (size : Nat) (parts : Nat → VectorPart) (l : Labels) (rank : Nat) :
    afterAssembly size (fun rank => (parts rank).label l) rank =
      ⟨(afterAssembly size parts rank).state.label l, (afterAssembly size parts rank).outcome⟩ := by
  have same : outcomeOf size (fun rank => (parts rank).label l) rank =
      outcomeOf size parts rank := by
    unfold outcomeOf
    simp only [shard_label]
  cases came : outcomeOf size parts rank with
  | ok values =>
    rw [afterAssembly_ok came, afterAssembly_ok (same.trans came), shard_label]
    exact congrArg (Attempt.mk · _)
      (withShard_label l _ { (parts rank).shard with values, queue := .empty })
  | error e =>
    rw [afterAssembly_error came, afterAssembly_error (same.trans came), shard_label]
    exact congrArg (Attempt.mk · _)
      (withShard_label l _ { (parts rank).shard with queue := .empty })

/-- Another owned part with the same extents. -/
theorem withShard_withShard (part : VectorPart) (one other : Shard) :
    (part.withShard one).withShard other = part.withShard other := by
  cases part <;> rfl

theorem withShard_self (part : VectorPart) : part.withShard part.shard = part := by
  cases part <;> rfl

end VectorPart

section calls

variable {size : Nat} {ι : Type} {T : ι → Type} [∀ i, Cell (T i)] {families : Nat → Family}

/-- The owned parts of a vector may change inside their extents. -/
theorem linked_withShard {parts : Nat → VectorPart} (linked : (Family.vector parts).Linked size)
    {shards : Nat → Shard} (seated : ∀ rank < size, (shards rank).Seated size rank)
    (extents : ∀ rank < size, (shards rank).extents = (parts rank).shard.extents) :
    (Family.vector fun rank => (parts rank).withShard (shards rank)).Linked size := by
  obtain ⟨-, shape⟩ := linked
  refine ⟨fun rank inside => ?_, ?_⟩
  · rw [VectorPart.shard_withShard]
    exact seated rank inside
  · rcases shape with plain | ⟨layouts, ids, halos, together, ghosted⟩
    · refine .inl fun rank inside => ⟨shards rank, ?_⟩
      obtain ⟨shard, same⟩ := plain rank inside
      exact congrArg (·.withShard (shards rank)) same
    · refine .inr ⟨layouts, ids, halos, together, fun rank inside => ?_⟩
      obtain ⟨shard, ghosts, same, laid, sized⟩ := ghosted rank inside
      refine ⟨shards rank, ghosts, ?_, ?_, sized⟩
      · exact congrArg (·.withShard (shards rank)) same
      · rw [extents rank inside, same]
        exact laid

/-- A call that only changes the vector under one name. -/
theorem safe_of_vector (linked : Linked size families) {call : Call size T} {name : Nat}
    {work : Memory → Nat → VectorPart → Program (Memory × Report T)}
    (runs : ∀ tags rank memory, call.run tags rank memory =
      memory.onVector name (work memory rank))
    (settles : ∀ parts, families name = .vector parts → (Family.vector parts).Linked size →
      ∃ (after : Nat → VectorPart) (reports : Nat → Report T), (Family.vector after).Linked size ∧
        ∀ labels : Nat → Labels, Group.Settles size
          (fun rank => work (.of families labels rank) rank ((parts rank).label (labels name)))
          fun rank => (Function.update (Memory.of families labels rank) name
            (.vector ((after rank).label (labels name))), reports rank)) :
    call.Safe families := by
  cases kept : families name with
  | vector parts =>
    have made := linked name
    rw [kept] at made
    obtain ⟨after, reports, sound, settled⟩ := settles parts kept made
    -- the labels stay, and so does all that has another name
    refine ⟨Function.update families name (.vector after), reports, linked.update sound name,
      fun tags labels => ⟨labels, ?_⟩⟩
    refine (settled labels).congr (fun rank _ => ?_) fun rank _ => ?_
    · rw [runs, Memory.onVector, Memory.of, kept]
      rfl
    · have same := Memory.of_update families labels rank name (.vector after) (labels name)
      rw [Function.update_eq_self] at same
      exact congrArg (·, reports rank) same.symm
  | nothing | halo =>
    refine safe_of_absent linked fun tags labels rank => ?_
    rw [runs, Memory.onVector, Memory.of, kept]
    rfl

/-- A part that stays is already there. -/
theorem Memory.update_of_kept {parts : Nat → VectorPart} {name : Nat}
    (kept : families name = .vector parts) (labels : Nat → Labels) (rank : Nat) :
    Function.update (Memory.of families labels rank) name
      (.vector ((parts rank).label (labels name))) = Memory.of families labels rank := by
  refine Function.update_eq_self_iff.2 ?_
  rw [Memory.of, kept]
  rfl

/-! ## Writing -/

/-- The shard after a write. A list of the wrong length is refused. -/
def Shard.written (s : Shard) (values : List Scalar) : Shard :=
  if values.length = s.localSize then { s with values } else s

theorem Shard.Seated.checked {s : Shard} {rank : Nat} (seated : s.Seated size rank)
    (inside : rank < size) : (Communicator.member rank size).check s.topology = .ok () :=
  seated.topology ▸ Communicator.check_member inside

theorem Shard.Seated.length_values {s : Shard} {rank : Nat} (seated : s.Seated size rank)
    (inside : rank < size) : s.values.length = (s.extents.rangeAt rank).length := by
  obtain ⟨topology, ⟨ranks, whole⟩, -⟩ := seated
  rw [topology] at ranks whole
  rw [Extents.localSize, Extents.range_eq (ranks ▸ inside)] at whole
  exact (Except.ok.inj whole).symm

theorem Shard.Seated.written {s : Shard} {rank : Nat} (seated : s.Seated size rank)
    (values : List Scalar) : (s.written values).Seated size rank := by
  unfold Shard.written
  split
  · rename_i fits
    obtain ⟨topology, ⟨ranks, whole⟩, unqueued⟩ := seated
    exact ⟨topology, ⟨ranks, whole.trans (congrArg Except.ok fits.symm)⟩, unqueued⟩
  · exact seated

theorem Shard.extents_written (s : Shard) (values : List Scalar) :
    (s.written values).extents = s.extents := by
  unfold Shard.written
  split <;> rfl

theorem safe_write (linked : Linked size families) (name : Nat) (values : Nat → List Scalar) :
    (Call.write name values : Call size T).Safe families := by
  refine safe_of_vector linked (fun _ _ _ => rfl) fun parts kept made => ?_
  let after (rank : Nat) := (parts rank).withShard ((parts rank).shard.written (values rank))
  refine ⟨after, fun rank =>
    if (values rank).length = (parts rank).shard.localSize then (after rank).report (.ok ())
    else .failed
      (.lengthMismatch "local values" (parts rank).shard.localSize (values rank).length),
    linked_withShard made (fun rank inside => (made.1 rank inside).written _)
      (fun rank _ => Shard.extents_written _ _),
    fun labels => .of_eq (fun rank _ => ?_) (.done _)⟩
  dsimp only [after]
  have size : ((parts rank).label (labels name)).shard.localSize =
      (parts rank).shard.localSize := by
    rw [VectorPart.shard_label]
    rfl
  by_cases fits : (values rank).length = (parts rank).shard.localSize
  · have moved := VectorPart.withShard_label (labels name) (parts rank)
      { (parts rank).shard with values := values rank }
    rw [Shard.setValues, size, if_pos fits, if_pos fits, Shard.written, if_pos fits,
      ← VectorPart.report_label (labels name), ← moved, VectorPart.shard_label]
    rfl
  · rw [Shard.setValues, size, if_neg fits, if_neg fits, Shard.written, if_neg fits,
      VectorPart.withShard_self, Memory.update_of_kept kept]
    rfl

/-! ## Assembling -/

namespace VectorPart

theorem placed {part : VectorPart} {rank : Nat} (seated : part.shard.Seated size rank) :
    part.Placed size rank part.shard.extents part.shard.tags.assembly :=
  ⟨seated.topology, rfl, seated.wellFormed, seated.unqueued, rfl⟩

theorem placed_label {part : VectorPart} {rank : Nat} (seated : part.shard.Seated size rank)
    (l : Labels) :
    (part.label l).Placed size rank part.shard.extents l.vector.assembly := by
  obtain ⟨topology, wellFormed, unqueued⟩ := seated
  constructor <;> rw [shard_label]
  · exact topology
  · exact wellFormed
  · exact unqueued

/-- With nothing queued and as many entries as before, a shard is in its place. -/
theorem Filled.seated {part : VectorPart} {rank : Nat} {e : Extents} {tags : AssemblyTags}
    (filled : part.Filled size rank e tags) (inside : rank < size) {values : List Scalar}
    (kept : values.length = part.shard.values.length) :
    Shard.Seated size rank { part.shard with values, queue := .empty } := by
  refine ⟨filled.topology, ⟨?_, ?_⟩, rfl⟩
  · show part.shard.extents.numRanks = part.shard.topology.size
    rw [filled.extents, filled.topology]
    exact filled.ranks
  · show part.shard.extents.localSize part.shard.topology.rank = .ok values.length
    rw [filled.extents, filled.topology, Extents.localSize,
      Extents.range_eq (filled.ranks ▸ inside), kept, ← filled.whole]
    rfl

theorem Filled.seated_afterAssembly {parts : Nat → VectorPart} {rank : Nat} {e : Extents}
    {tags : AssemblyTags} (filled : (parts rank).Filled size rank e tags) (inside : rank < size) :
    (afterAssembly size parts rank).state.shard.Seated size rank ∧
      (afterAssembly size parts rank).state.shard.extents = e := by
  cases came : outcomeOf size parts rank with
  | ok values =>
    rw [afterAssembly_ok came, shard_withShard]
    exact ⟨filled.seated inside (Group.length_of_assembledTo came), filled.extents⟩
  | error e =>
    rw [afterAssembly_error came, shard_withShard]
    exact ⟨filled.seated inside rfl, filled.extents⟩

/-- Calls and an assembly change the owned part only. -/
theorem afterAssembly_afterCalls (parts : Nat → VectorPart) (calls : Nat → List QueueCall)
    (rank : Nat) :
    let after := afterAssembly size (fun rank => (parts rank).afterCalls (calls rank)) rank
    after.state = (parts rank).withShard after.state.shard := by
  intro after
  have moved : after.state = (parts rank).withShard _ := withShard_withShard _ _ _
  rw [moved, shard_withShard]

end VectorPart

/-- What the calls have queued fits into one buffer. -/
theorem Shard.Seated.addressable {part : VectorPart} {rank : Nat}
    (seated : part.shard.Seated size rank) {calls : List QueueCall}
    (small : QueueCall.Addressable calls) : (part.afterCalls calls).shard.queue.Addressable := by
  have bound := part.shard.length_afterCalls_le calls
  rw [seated.unqueued, OpQueue.length_empty, Nat.zero_add] at bound
  unfold VectorPart.afterCalls
  rw [VectorPart.shard_withShard]
  exact Nat.le_trans (Nat.mul_le_mul_right _ bound) small

theorem safe_assemble (linked : Linked size families) (name : Nat)
    (calls : Nat → List QueueCall)
    (small : ∀ rank < size, QueueCall.Addressable (calls rank)) :
    (Call.assemble name calls small : Call size T).Safe families := by
  refine safe_of_vector linked (fun _ _ _ => rfl) fun parts kept made => ?_
  let full (rank : Nat) := (parts rank).afterCalls (calls rank)
  let after := VectorPart.afterAssembly size full
  have seated : ∀ rank < size, (after rank).state.shard.Seated size rank ∧
      (after rank).state.shard.extents = (parts rank).shard.extents := fun rank inside =>
    ((VectorPart.placed (made.1 rank inside)).filled inside (calls rank)).seated_afterAssembly
      inside
  have same : (fun rank => (after rank).state) =
      fun rank => (parts rank).withShard (after rank).state.shard :=
    funext (VectorPart.afterAssembly_afterCalls parts calls)
  refine ⟨fun rank => (after rank).state,
    fun rank => (after rank).state.report (after rank).outcome, ?_, fun labels => ?_⟩
  · rw [same]
    exact linked_withShard made (fun rank inside => (seated rank inside).1)
      fun rank inside => (seated rank inside).2
  · let l := labels name
    have filled : ∀ rank < size, ((full rank).label l).Filled size rank (parts rank).shard.extents
        l.vector.assembly := by
      intro rank inside
      rw [← VectorPart.afterCalls_label]
      exact (VectorPart.placed_label (made.1 rank inside) l).filled inside (calls rank)
    have addressable : ∀ rank < size, ((full rank).label l).shard.queue.Addressable := by
      intro rank inside
      rw [VectorPart.shard_label]
      exact (made.1 rank inside).addressable (small rank inside)
    have assembles := VectorPart.settles_assembleQueued filled addressable
    refine (assembles.map fun rank attempt =>
      (Function.update (Memory.of families labels rank) name (.vector attempt.state),
        attempt.state.report attempt.outcome)).congr (fun rank _ => ?_) fun rank _ => ?_
    · dsimp only [full]
      rw [← VectorPart.afterCalls_label]
      rfl
    · dsimp only
      rw [VectorPart.afterAssembly_label, VectorPart.report_label]

/-! ## Refreshing ghosts -/

namespace VectorPart

/-- The part with other ghosts, if it has any. -/
def withGhosts : VectorPart → List Scalar → VectorPart
  | plain shard, _ => plain shard
  | ghosted vector, ghosts => ghosted { vector with ghosts }

/-- The part with the entries and ghosts of a refreshed buffer. -/
def withBuffer : VectorPart → List Scalar → VectorPart
  | plain shard, _ => plain shard
  | ghosted vector, buffer =>
    let size := vector.shard.localSize
    ghosted {
      vector with
      shard := { vector.shard with values := buffer.take size }
      ghosts := buffer.drop size }

theorem withBuffer_append (part : VectorPart) (ghosts : List Scalar) :
    part.withBuffer (part.shard.values ++ ghosts) = part.withGhosts ghosts := by
  cases part with
  | plain shard => rfl
  | ghosted vector =>
    have length : vector.shard.values.length = vector.shard.localSize := rfl
    unfold withBuffer withGhosts shard
    dsimp only
    rw [List.take_left' length, List.drop_left' length]

@[simp] theorem shard_withGhosts (part : VectorPart) (ghosts : List Scalar) :
    (part.withGhosts ghosts).shard = part.shard := by
  cases part <;> rfl

theorem withGhosts_label (l : Labels) (part : VectorPart) (ghosts : List Scalar) :
    (part.label l).withGhosts ghosts = (part.withGhosts ghosts).label l := by
  cases part <;> rfl

theorem updateGhosts_ghosted (l : Labels) {vector : GhostedShard} {c : Communicator}
    (checked : c.check vector.shard.topology = .ok ()) :
    DistributedVector.updateGhosts ((ghosted vector).label l) c =
      Halo.refreshBuffer { vector.halo with tags := l.halo } c vector.buffer >>= fun buffer =>
        pure (((ghosted vector).label l).withBuffer buffer) := by
  show ghosted <$> GhostedShard.refresh _ c = _
  unfold GhostedShard.refresh
  dsimp only
  rw [checked, Collective.ofExcept_ok_bind, map_bind]
  simp only [map_pure]
  rfl

/-- All ranks refresh their ghosts, and succeed. -/
theorem settles_updateGhosts {parts : Nat → VectorPart}
    (linked : (Family.vector parts).Linked size) :
    ∃ after : Nat → VectorPart, (Family.vector after).Linked size ∧ ∀ l : Labels,
      Group.Settles size
        (fun rank =>
          (DistributedVector.updateGhosts ((parts rank).label l) (.member rank size)).run)
        fun rank => .ok ((after rank).label l) := by
  obtain ⟨seated, plain | ⟨extents, ids, halos, together, ghosted⟩⟩ := id linked
  -- without ghosts there is only the check
  · refine ⟨parts, linked, fun l => .of_eq (fun rank inside => ?_) (.done _)⟩
    obtain ⟨shard, same⟩ := plain rank inside
    have checked : (Communicator.member rank size).check shard.topology = .ok () := by
      have known := (seated rank inside).checked inside
      rwa [same] at known
    rw [same]
    show (VectorPart.plain <$> (Collective.ofExcept ((Communicator.member rank size).check
      shard.topology) >>= fun _ => pure _)).run = _
    rw [checked]
    rfl
  -- a linked part has as many entries and ghosts as its halo, so no rank is refused
  · let owned (rank : Nat) := (parts rank).shard.values
    have sized : ∀ rank < size, (halos rank).localSize = (owned rank).length ∧
        (halos rank).numGhosts = (parts rank).ghosts.length := by
      intro rank inside
      obtain ⟨shard, ghosts, same, laid, many⟩ := ghosted rank inside
      have length := (seated rank inside).length_values inside
      rw [together.localSize_eq inside, Halo.numGhosts, together.ghostIds_eq inside, length, same]
      exact ⟨congrArg (fun e => (Extents.rangeAt e rank).length) laid.symm, many.symm⟩
    let originals (rank : Nat) := (ids rank).map (Halo.original extents owned rank)
    refine ⟨fun rank => (parts rank).withGhosts (originals rank), ⟨fun rank inside => ?_, ?_⟩,
      fun l => ?_⟩
    · rw [shard_withGhosts]
      exact seated rank inside
    · refine .inr ⟨extents, ids, halos, together, fun rank inside => ?_⟩
      obtain ⟨shard, ghosts, same, laid, -⟩ := ghosted rank inside
      exact ⟨shard, originals rank, congrArg (·.withGhosts (originals rank)) same, laid,
        List.length_map _⟩
    · have fetched := Group.settles_refreshBuffer (together.withTags l.halo)
        fun rank => owned rank ++ (parts rank).ghosts
      have brought : ∀ rank < size, _ = Except.ok (owned rank ++ originals rank) :=
        fun rank inside => Group.refreshedBuffer_eq (together.withTags l.halo) sized inside
      refine (Collective.settles_map (fun rank => ((parts rank).label l).withBuffer)
        (fetched.congr (fun _ _ => rfl) brought)).congr (fun rank inside => ?_) fun rank _ => ?_
      · obtain ⟨shard, ghosts, same, -, -⟩ := ghosted rank inside
        have checked : (Communicator.member rank size).check shard.topology = .ok () := by
          have known := (seated rank inside).checked inside
          rwa [same] at known
        dsimp only [owned]
        rw [same, updateGhosts_ghosted l checked]
        rfl
      · have whole := withBuffer_append ((parts rank).label l) (originals rank)
        rw [shard_label] at whole
        exact congrArg Except.ok (whole.trans (withGhosts_label l _ _))

end VectorPart

theorem safe_updateGhosts (linked : Linked size families) (name : Nat) :
    (Call.updateGhosts name : Call size T).Safe families := by
  refine safe_of_vector linked (fun _ _ _ => rfl) fun parts kept made => ?_
  obtain ⟨after, sound, settled⟩ := VectorPart.settles_updateGhosts made
  refine ⟨after, fun rank => (after rank).report (.ok ()), sound, fun labels => ?_⟩
  refine ((settled (labels name)).map fun rank => (Memory.of families labels rank).change
    name).congr (fun _ _ => rfl) fun rank _ => ?_
  exact congrArg (Prod.mk _) (VectorPart.report_label (labels name) (after rank) _)

/-! ## Norms -/

/-- What a rank contributes to a norm. -/
def Shard.normPart (s : Shard) : Norm → Scalar
  | .l1 => .sum (s.values.map Scalar.abs)
  | .l2 => .sum (s.values.map fun x => x * x)
  | .lInf => s.maxAbs

/-- How the contributions to a norm are combined. -/
def Norm.reduction : Norm → Reduction
  | l1 | l2 => .sum
  | lInf => .max

/-- What is left to do when the contributions are combined. -/
def Norm.finish : Norm → Scalar → Scalar
  | l1 | lInf => id
  | l2 => Scalar.sqrt

theorem Shard.norm_eq {s : Shard} {c : Communicator} (checked : c.check s.topology = .ok ())
    (which : Norm) :
    s.norm c which = reduce c (s.normPart which) which.reduction >>= fun total =>
      pure (which.finish total) := by
  unfold Shard.norm
  rw [checked, Collective.ofExcept_ok_bind]
  cases which with
  | l1 | lInf => exact (bind_pure _).symm
  | l2 => rfl

/-- The norms of shards of one group are combined on all ranks in rank order. -/
theorem Group.settles_norm {shards : Nat → Shard} (which : Nat → Norm)
    (checked : ∀ rank < size,
      (Communicator.member rank size).check (shards rank).topology = .ok ()) :
    Group.Settles size
      (fun rank => ((shards rank).norm (.member rank size) (which rank)).run)
      fun rank => .ok ((which rank).finish ((which rank).reduction.fold
        ((List.range size).map fun rank => (shards rank).normPart (which rank)))) := by
  refine .of_eq (fun rank inside => ?_) (Collective.settles_map (fun rank => (which rank).finish)
    (@settles_reduce size (fun rank => (shards rank).normPart (which rank))
      fun rank => (which rank).reduction))
  rw [Shard.norm_eq (checked rank inside)]

theorem safe_norm (linked : Linked size families) (name : Nat) (which : Nat → Norm) :
    (Call.norm name which : Call size T).Safe families := by
  refine safe_of_vector linked (fun _ _ _ => rfl) fun parts kept made => ?_
  let total (rank : Nat) := (which rank).reduction.fold
    ((List.range size).map fun rank => (parts rank).shard.normPart (which rank))
  refine ⟨parts, fun rank => .norm ((which rank).finish (total rank)), made, fun labels => ?_⟩
  have normed := @Group.settles_norm size
    (fun rank => ((parts rank).label (labels name)).shard) which fun rank inside => by
      rw [VectorPart.shard_label]
      exact (made.1 rank inside).checked inside
  refine (normed.map fun rank => (Memory.of families labels rank).tell .norm).congr
    (fun _ _ => rfl) fun rank _ => ?_
  rw [Memory.update_of_kept kept]
  simp only [VectorPart.shard_label]
  rfl

end calls

end HaloVector
