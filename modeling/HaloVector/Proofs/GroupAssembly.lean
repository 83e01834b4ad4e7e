import HaloVector.Proofs.Assembling
import HaloVector.Proofs.Queueing

/-!
# Assembly on a group

The vectors of a group, one part on each rank, are assembled together. Whatever calls
filled their queues, and whichever rank goes on first:

* If the queues agree in mode and the ranks in extents, every entry becomes the fold
  of all operations that were queued for it anywhere
  (`VectorPart.assembleQueued_folds`).
* If the ranks differ in extents, `VectorPart.outcomeOf` is still all that there is to
  know of the schedules (`VectorPart.settles_assembleQueued`).
-/

namespace HaloVector

/-! ## Parts of a vector -/

/-- One rank's part of a vector, with ghosts or without. -/
inductive VectorPart
  | plain (shard : Shard)
  | ghosted (vector : GhostedShard)

namespace VectorPart

def shard : VectorPart → Shard
  | plain shard => shard
  | ghosted vector => vector.shard

def withShard : VectorPart → Shard → VectorPart
  | plain _, shard => plain shard
  | ghosted vector, shard => ghosted { vector with shard }

/-- The ghost region; a part without ghosts has none. -/
def ghosts : VectorPart → List Scalar
  | plain _ => []
  | ghosted vector => vector.ghosts

instance : DistributedVector VectorPart where
  shard := shard
  withShard := withShard
  updateGhosts v c := match v with
    | plain s => plain <$> DistributedVector.updateGhosts s c
    | ghosted g => ghosted <$> DistributedVector.updateGhosts g c

@[simp] theorem shard_withShard (v : VectorPart) (s : Shard) : (v.withShard s).shard = s := by
  cases v <;> rfl

@[simp] theorem ghosts_withShard (v : VectorPart) (s : Shard) :
    (v.withShard s).ghosts = v.ghosts := by
  cases v <;> rfl

/-- The part after some calls that queue updates. -/
def afterCalls (v : VectorPart) (calls : List QueueCall) : VectorPart :=
  v.withShard (v.shard.afterCalls calls)

/-- The part belongs to a rank of a group, which has nothing queued yet. -/
structure Placed (size rank : Nat) (extents : Extents) (tags : AssemblyTags) (v : VectorPart) :
    Prop where
  topology : v.shard.topology = ⟨rank, size⟩
  extents : v.shard.extents = extents
  wellFormed : v.shard.WellFormed
  unqueued : v.shard.queue = .empty
  tags : v.shard.tags.assembly = tags

end VectorPart

/-! ## Runs -/

/-- What an assembly makes of a shard. -/
def Shard.assembled (s : Shard) : Except VectorError (List Scalar) → Attempt Shard
  | .ok values => ⟨{ s with values, queue := .empty }, .ok ()⟩
  | .error e => ⟨{ s with queue := .empty }, .error e⟩

theorem Shard.assemble_of_check {c : Communicator} {s : Shard}
    (checked : c.check s.topology = .ok ()) :
    s.assemble c =
      (assembleDrained c s.extents s.values s.queue.drained s.tags.assembly).run.bind
        fun outcome => .done (s.assembled outcome) := by
  unfold Shard.assemble
  rw [checked]
  show Program.bind (HaloVector.assemble ..) _ = _
  rw [assemble_eq, Program.bind_assoc]
  congr 1
  funext outcome
  cases outcome <;> rfl

theorem Shard.assemble_member {rank size : Nat} (inside : rank < size) {s : Shard}
    (topology : s.topology = ⟨rank, size⟩) :
    s.assemble (.member rank size) =
      (assembleDrained (.member rank size) s.extents s.values s.queue.drained
        s.tags.assembly).run.bind fun outcome => .done (s.assembled outcome) :=
  Shard.assemble_of_check (topology ▸ Communicator.check_member inside)

namespace Group

variable {size : Nat} {extents : Nat → Extents} {tags : AssemblyTags}

/-- All shards of a group assemble together. -/
theorem settles_assemble {shards : Nat → Shard}
    (topology : ∀ rank < size, (shards rank).topology = ⟨rank, size⟩)
    (sameTags : ∀ rank < size, (shards rank).tags.assembly = tags)
    (ready : Ready size (fun rank => (shards rank).extents) (fun rank => (shards rank).values)
      fun rank => (shards rank).queue.drained) :
    Settles size (fun rank => (shards rank).assemble (.member rank size)) fun rank =>
      (shards rank).assembled (assembledTo size (fun rank => (shards rank).extents)
        (fun rank => (shards rank).values) (fun rank => (shards rank).queue.drained) rank) := by
  refine .of_eq (fun rank inside => ?_)
    ((settles_assembleDrained ready tags).map fun rank => (shards rank).assembled)
  rw [← sameTags rank inside]
  exact Shard.assemble_member inside (topology rank inside)

end Group

namespace VectorPart

variable {size rank : Nat} {e : Extents} {tags : AssemblyTags}

/-- A part with whatever calls have queued. -/
structure Filled (size rank : Nat) (e : Extents) (tags : AssemblyTags) (v : VectorPart) :
    Prop where
  topology : v.shard.topology = ⟨rank, size⟩
  extents : v.shard.extents = e
  ranks : e.numRanks = size
  whole : (e.rangeAt rank).length = v.shard.values.length
  sound : v.shard.queue.Sound e.globalSize
  tags : v.shard.tags.assembly = tags

/-- Calls change nothing but the queue. -/
theorem Placed.shard_afterCalls {v : VectorPart} (placed : v.Placed size rank e tags)
    (calls : List QueueCall) :
    ∃ queue, (v.afterCalls calls).shard = { v.shard with queue } ∧
      queue.Sound v.shard.globalSize := by
  have sound : v.shard.queue.Sound v.shard.globalSize :=
    placed.unqueued ▸ OpQueue.sound_empty _
  obtain ⟨queue, same, held⟩ := Shard.afterCalls_eq sound calls
  exact ⟨queue, (shard_withShard v _).trans same, held⟩

theorem Placed.values_afterCalls {v : VectorPart} (placed : v.Placed size rank e tags)
    (calls : List QueueCall) : (v.afterCalls calls).shard.values = v.shard.values := by
  obtain ⟨queue, here, -⟩ := placed.shard_afterCalls calls
  rw [here]

theorem Placed.filled (inside : rank < size) {v : VectorPart} (placed : v.Placed size rank e tags)
    (calls : List QueueCall) : (v.afterCalls calls).Filled size rank e tags := by
  obtain ⟨queue, here, held⟩ := placed.shard_afterCalls calls
  obtain ⟨ranks, whole⟩ := placed.wellFormed
  rw [placed.extents, placed.topology] at ranks whole
  constructor
  · rw [here]
    exact placed.topology
  · rw [here]
    exact placed.extents
  · exact ranks
  · rw [Extents.localSize, Extents.range_eq (ranks ▸ inside)] at whole
    rw [here]
    exact Except.ok.inj whole
  · rw [here, ← placed.extents]
    exact held
  · rw [here]
    exact placed.tags

section group

variable {extents : Nat → Extents} {parts : Nat → VectorPart}

theorem ready (filled : ∀ rank < size, (parts rank).Filled size rank (extents rank) tags)
    (small : ∀ rank < size, (parts rank).shard.queue.Addressable) :
    Group.Ready size (fun rank => (parts rank).shard.extents)
      (fun rank => (parts rank).shard.values) fun rank => (parts rank).shard.queue.drained where
  ranks rank inside := (filled rank inside).extents ▸ (filled rank inside).ranks
  room rank inside := (filled rank inside).extents ▸ Nat.le_of_eq (filled rank inside).whole
  known rank inside := (filled rank inside).extents ▸ (filled rank inside).sound.known_of_drained
  small rank inside :=
    Nat.le_trans (Nat.mul_le_mul_right _ (OpQueue.length_drained_le _)) (small rank inside)

/-- What a rank's part comes to. -/
def outcomeOf (size : Nat) (parts : Nat → VectorPart) (rank : Nat) :
    Except VectorError (List Scalar) :=
  Group.assembledTo size (fun rank => (parts rank).shard.extents)
    (fun rank => (parts rank).shard.values) (fun rank => (parts rank).shard.queue.drained) rank

/-- What an assembly leaves of a rank's part. -/
def afterAssembly (size : Nat) (parts : Nat → VectorPart) (rank : Nat) : Attempt VectorPart :=
  DistributedVector.withAttempt (parts rank)
    ((parts rank).shard.assembled (outcomeOf size parts rank))

theorem queue_afterAssembly (size : Nat) (parts : Nat → VectorPart) (rank : Nat) :
    (afterAssembly size parts rank).state.shard.queue = .empty := by
  show ((parts rank).withShard (Shard.assembled _ _).state).shard.queue = _
  rw [shard_withShard]
  cases outcomeOf size parts rank <;> rfl

theorem afterAssembly_ok {values : List Scalar} (came : outcomeOf size parts rank = .ok values) :
    afterAssembly size parts rank =
      ⟨(parts rank).withShard { (parts rank).shard with values, queue := .empty }, .ok ()⟩ := by
  rw [afterAssembly, came]
  rfl

theorem afterAssembly_error {error : VectorError}
    (came : outcomeOf size parts rank = .error error) :
    afterAssembly size parts rank =
      ⟨(parts rank).withShard { (parts rank).shard with queue := .empty }, .error error⟩ := by
  rw [afterAssembly, came]
  rfl

theorem settles_assembleQueued
    (filled : ∀ rank < size, (parts rank).Filled size rank (extents rank) tags)
    (small : ∀ rank < size, (parts rank).shard.queue.Addressable) :
    Group.Settles size
      (fun rank => DistributedVector.assembleQueued (parts rank) (.member rank size))
      (afterAssembly size parts) :=
  (Group.settles_assemble (fun rank inside => (filled rank inside).topology)
    (fun rank inside => (filled rank inside).tags) (ready filled small)).map
      fun rank => DistributedVector.withAttempt (parts rank)

/-! ## What is queued for an entry -/

/-- The operations that are queued on a rank for one id. -/
def operationsOn (v : VectorPart) (id : UInt64) : List (OpKind × Update) :=
  v.shard.queue.operations.filter (·.2.id = id)

/-- The operations that are queued anywhere for one id of `owner`: first its own, then
those of the others by rank. -/
def operationsFor (size : Nat) (parts : Nat → VectorPart) (owner : Nat) (id : UInt64) :
    List (OpKind × Update) :=
  operationsOn (parts owner) id ++
    (Topology.mk owner size).peers.flatMap fun source => operationsOn (parts source) id

/-- A set gives an entry its value, and an add increases what is there. -/
def afterOperation (old : Scalar) : OpKind × Update → Scalar
  | (.set, update) => update.value
  | (.add, update) => old.increase update.value

/-- The new value of an entry after some operations. -/
def afterOperations (old : Scalar) (operations : List (OpKind × Update)) : Scalar :=
  operations.foldl afterOperation old

theorem apply_mode (operation : OpKind × Update) (old : Scalar) :
    operation.1.mode.apply old operation.2.value = afterOperation old operation := by
  obtain ⟨kind, update⟩ := operation
  cases kind <;> rfl

/-- The modes of a group whose queues go together. -/
def AgreeOnMode (size : Nat) (parts : Nat → VectorPart) : Prop :=
  (∀ rank < size, (parts rank).shard.mode ≠ .mixed) ∧
    ∀ one < size, ∀ other < size, (parts one).shard.mode ≠ .empty →
      (parts other).shard.mode ≠ .empty → (parts one).shard.mode = (parts other).shard.mode

instance (size : Nat) (parts : Nat → VectorPart) : Decidable (AgreeOnMode size parts) :=
  inferInstanceAs (Decidable (_ ∧ _))

/-- The mode of a group. -/
def groupModeOf (size : Nat) (parts : Nat → VectorPart) : QueueMode :=
  .greatest (Group.modesOf size fun rank => (parts rank).shard.queue.drained)

theorem mem_modesOf {mode : QueueMode} :
    mode ∈ Group.modesOf size (fun rank => (parts rank).shard.queue.drained) ↔
      ∃ rank < size, (parts rank).shard.mode = mode := by
  simp only [Group.modesOf, List.mem_map, List.mem_range, OpQueue.drained_mode]
  rfl

theorem agreeOnMode_iff : AgreeOnMode size parts ↔
    QueueMode.Agree (Group.modesOf size fun rank => (parts rank).shard.queue.drained) := by
  constructor
  · rintro ⟨unmixed, matching⟩ _ member
    obtain ⟨rank, inside, rfl⟩ := mem_modesOf.1 member
    refine ⟨unmixed rank inside, fun _ present => ?_⟩
    obtain ⟨other, within, rfl⟩ := mem_modesOf.1 present
    exact matching rank inside other within
  · intro agree
    have of (rank : Nat) (inside : rank < size) := agree _ (mem_modesOf.2 ⟨rank, inside, rfl⟩)
    exact ⟨fun rank inside => (of rank inside).1, fun one inside other within =>
      (of one inside).2 _ (mem_modesOf.2 ⟨other, within, rfl⟩)⟩

section agreeing

variable (filled : ∀ rank < size, (parts rank).Filled size rank (extents rank) tags)
  (agree : AgreeOnMode size parts)

include filled agree

theorem drained_updates (inside : rank < size) :
    (parts rank).shard.queue.drained.updates =
      (parts rank).shard.queue.operations.map Prod.snd :=
  ((filled rank inside).sound.drained_eq (agree.1 rank inside)).1

theorem mode_of_mem_operations (inside : rank < size) {operation : OpKind × Update}
    (member : operation ∈ (parts rank).shard.queue.operations) :
    operation.1.mode = groupModeOf size parts := by
  have own := ((filled rank inside).sound.drained_eq (agree.1 rank inside)).2 operation member
  have some' : (parts rank).shard.mode ≠ .empty := by
    show (parts rank).shard.queue.mode ≠ .empty
    rw [← own]
    cases operation.1 <;> decide
  exact own.trans ((agreeOnMode_iff.1 agree).greatest_eq
    (mem_modesOf.2 ⟨rank, inside, rfl⟩) some').symm

theorem mode_of_mem_operationsFor {owner : Nat} (inside : owner < size) {id : UInt64}
    {operation : OpKind × Update} (member : operation ∈ operationsFor size parts owner id) :
    operation.1.mode = groupModeOf size parts := by
  rcases List.mem_append.1 member with own | others
  · exact mode_of_mem_operations filled agree inside (List.mem_filter.1 own).1
  · obtain ⟨source, peer, queued⟩ := List.mem_flatMap.1 others
    exact mode_of_mem_operations filled agree (Topology.mem_peers.1 peer).1
      (List.mem_filter.1 queued).1

omit filled in
theorem outcomeOf_eq (rank : Nat) : outcomeOf size parts rank =
    Group.assembledIn size (fun rank => (parts rank).shard.extents)
      (fun rank => (parts rank).shard.values) (fun rank => (parts rank).shard.queue.drained)
      (groupModeOf size parts) rank := by
  unfold outcomeOf Group.assembledTo
  rw [groupMode_eq_ok (agreeOnMode_iff.1 agree)]
  rfl

end agreeing

/-! ## Equal extents -/

section equal

variable (filled : ∀ rank < size, (parts rank).Filled size rank e tags)

include filled

/-- What others have for a rank is for one of its entries. -/
theorem inspected_eq (inside : rank < size) :
    Group.inspected size (fun rank => (parts rank).shard.extents)
      (fun rank => (parts rank).shard.queue.drained) rank =
    .ok (Group.arriving size (fun rank => (parts rank).shard.extents)
      (fun rank => (parts rank).shard.queue.drained) rank) := by
  refine inspect_of_held fun item member => ?_
  obtain ⟨source, peer, arrived⟩ := List.mem_flatMap.1 member
  obtain ⟨update, sent, rfl⟩ := List.mem_map.1 arrived
  have owned := (List.mem_filter.1 sent).2
  dsimp only at owned ⊢
  rw [(filled source (Topology.mem_peers.1 peer).1).extents,
    Extents.isOwnedBy_eq_contains ((filled rank inside).ranks ▸ inside)] at owned
  rwa [(filled rank inside).extents]

/-- What a rank has for an entry of another is all that is queued there for it. -/
theorem filter_share_drained (agree : AgreeOnMode size parts) {owner source : Nat}
    (inside : owner < size) (within : source < size) {id : UInt64}
    (mine : (e.rangeAt owner).contains id) :
    (share (parts source).shard.extents Update.id
      (parts source).shard.queue.drained.updates owner).filter (·.id = id) =
    (operationsOn (parts source) id).map Prod.snd := by
  have owned : e.isOwnedBy id owner :=
    (Extents.isOwnedBy_eq_contains ((filled owner inside).ranks ▸ inside) id).trans mine
  rw [(filled source within).extents, filter_share owned, drained_updates filled agree within,
    List.filter_map]
  rfl

theorem filter_due (agree : AgreeOnMode size parts) (inside : rank < size) {id : UInt64}
    (mine : (e.rangeAt rank).contains id) :
    (Group.due size (fun rank => (parts rank).shard.extents)
      (fun rank => (parts rank).shard.queue.drained) rank).filter (·.id = id) =
    (operationsFor size parts rank id).map Prod.snd := by
  rw [Group.due, Group.arriving, arrivals, List.filter_append,
    filter_share_drained filled agree inside inside mine,
    operationsFor, List.map_append, List.map_flatMap, List.map_flatMap, List.filter_flatMap]
  congr 1
  refine List.flatMap_congr fun source peer => ?_
  rw [List.map_map, ← filter_share_drained filled agree inside (Topology.mem_peers.1 peer).1 mine]
  exact congrArg (List.filter _) (List.map_id _)

theorem foldl_due (agree : AgreeOnMode size parts) (inside : rank < size) {id : UInt64}
    (mine : (e.rangeAt rank).contains id) (old : Scalar) :
    ((Group.due size (fun rank => (parts rank).shard.extents)
      (fun rank => (parts rank).shard.queue.drained) rank).filter (·.id = id)).foldl
        (fun value update => (groupModeOf size parts).apply value update.value) old =
      afterOperations old (operationsFor size parts rank id) := by
  rw [filter_due filled agree inside mine, List.foldl_map]
  refine List.foldl_ext _ _ old fun value operation member => ?_
  rw [← mode_of_mem_operationsFor filled agree inside member, apply_mode]

/-- Every entry of a rank becomes what all operations that are queued for it make of it. -/
theorem exists_outcome (small : ∀ rank < size, (parts rank).shard.queue.Addressable)
    (agree : AgreeOnMode size parts) (inside : rank < size) :
    ∃ values, outcomeOf size parts rank = .ok values ∧
      values.length = (parts rank).shard.values.length ∧
      ∀ id, (e.rangeAt rank).contains id → ∃ old,
        (parts rank).shard.values[(e.rangeAt rank).offset id]? = some old ∧
        values[(e.rangeAt rank).offset id]? =
          some (afterOperations old (operationsFor size parts rank id)) := by
  have whole := (filled rank inside).whole
  have present : ∀ id, (e.rangeAt rank).contains id → ∃ old,
      (parts rank).shard.values[(e.rangeAt rank).offset id]? = some old := fun id mine =>
    ⟨_, List.getElem?_eq_getElem (whole ▸ IdRange.offset_lt mine)⟩
  rw [outcomeOf_eq agree]
  unfold Group.assembledIn
  by_cases nothing : groupModeOf size parts = .empty
  · refine ⟨_, if_pos nothing, rfl, fun id mine => ?_⟩
    obtain ⟨old, here⟩ := present id mine
    -- an operation for the entry would have given the group its mode
    have unqueued : operationsFor size parts rank id = [] := by
      refine List.eq_nil_iff_forall_not_mem.2 fun operation member => ?_
      have mode := mode_of_mem_operationsFor filled agree inside member
      rw [nothing] at mode
      cases kind : operation.1 <;> rw [kind] at mode <;> cases mode
    exact ⟨old, here, by rw [unqueued, here]; rfl⟩
  · rw [if_neg nothing, Group.agreed_ok (fun rank inside => inspected_eq filled inside) inside]
    have entering := ready filled small
    obtain ⟨values, ran, entries⟩ := exists_appliedToOwned (groupModeOf size parts)
      (entering.room rank inside)
      (Group.held_of_inspected entering.addressed inside (inspected_eq filled inside))
    refine ⟨values, ?_, length_applyToOwned? ran, fun id mine => ?_⟩
    · rw [Except.map, Group.applied, ran, Option.getD_some]
    · obtain ⟨old, here⟩ := present id mine
      have changed := entries id ((filled rank inside).extents ▸ mine)
      rw [(filled rank inside).extents, here, Option.map_some,
        foldl_due filled agree inside mine] at changed
      exact ⟨old, here, changed⟩

end equal

end group

/-- Over equal extents and with queues that go together, every schedule of an assembly
ends well on every rank: each entry becomes the fold of the operations that were queued
for it, its owner's first and then those of the others by rank, and nothing else
changes. -/
theorem assembleQueued_folds {parts : Nat → VectorPart} (calls : Nat → List QueueCall)
    (placed : ∀ rank < size, (parts rank).Placed size rank e tags)
    (small : ∀ rank < size, ((parts rank).afterCalls (calls rank)).shard.queue.Addressable)
    (agree : AgreeOnMode size fun rank => (parts rank).afterCalls (calls rank)) :
    ∃ after : Nat → VectorPart,
      Group.Settles size
        (fun rank => DistributedVector.assembleQueued ((parts rank).afterCalls (calls rank))
          (.member rank size))
        (fun rank => ⟨after rank, .ok ()⟩) ∧
      ∀ rank < size,
        (after rank).shard.queue = .empty ∧ (after rank).shard.mode = .empty ∧
        (after rank).ghosts = (parts rank).ghosts ∧
        (after rank).shard.values.length = (parts rank).shard.values.length ∧
        ∀ own, e.range rank = .ok own → ∀ id, own.contains id → ∃ old,
          (parts rank).shard.values[own.offset id]? = some old ∧
          (after rank).shard.values[own.offset id]? = some (afterOperations old
            (operationsFor size (fun rank => (parts rank).afterCalls (calls rank)) rank id)) := by
  let queued (rank : Nat) := (parts rank).afterCalls (calls rank)
  have filled : ∀ rank < size, (queued rank).Filled size rank e tags :=
    fun rank inside => (placed rank inside).filled inside (calls rank)
  refine ⟨fun rank => (afterAssembly size queued rank).state,
    (settles_assembleQueued filled small).congr (fun _ _ => rfl) fun rank inside => ?_,
    fun rank inside => ?_⟩
  · obtain ⟨values, came, -, -⟩ := exists_outcome filled small agree inside
    dsimp only
    rw [afterAssembly_ok came]
  · obtain ⟨values, came, kept, entries⟩ := exists_outcome filled small agree inside
    rw [(placed rank inside).values_afterCalls (calls rank)] at kept entries
    dsimp only
    rw [afterAssembly_ok came, shard_withShard, ghosts_withShard]
    refine ⟨rfl, rfl, ghosts_withShard _ _, kept, fun own ranged id mine => ?_⟩
    rw [Extents.range_eq ((filled rank inside).ranks ▸ inside)] at ranged
    cases ranged
    exact entries id mine

/-- Two ranks, which own one entry and two. -/
def oneAndTwo : Extents := ⟨[1, 3], by decide, by decide⟩

/-- The second rank keeps the entry of the first as a ghost. -/
def oneAndTwoParts : Nat → VectorPart
  | 0 => plain ⟨⟨0, 2⟩, oneAndTwo, [.one], .empty, default⟩
  | rank =>
    ghosted {
      shard := ⟨⟨rank, 2⟩, oneAndTwo, [.zero, .one], .empty, default⟩
      halo := ⟨⟨rank, 2⟩, oneAndTwo, [0], ∅, [0], .empty, default⟩
      ghosts := [.one] }

/-- Both ranks add to the first entry of the second. -/
def oneAndTwoCalls : Nat → List QueueCall
  | 0 => [.batch .add [2, 1] [.one, .one]]
  | _ => [.one .add ⟨1, .one⟩, .one .add ⟨0, .one⟩]

/-- Both ranks set the first entry of the second, its owner more than once. -/
def oneAndTwoSets : Nat → List QueueCall
  | 0 => [.one .set ⟨1, .one⟩]
  | _ => [.batch .set [1, 2, 1] [.zero, .zero, .negInfinity]]

theorem oneAndTwo_placed : ∀ rank < 2,
    (oneAndTwoParts rank).Placed 2 rank oneAndTwo (default : VectorTags).assembly
  | 0, _ => ⟨rfl, rfl, ⟨rfl, rfl⟩, rfl, rfl⟩
  | 1, _ => ⟨rfl, rfl, ⟨rfl, rfl⟩, rfl, rfl⟩

theorem assembleQueued_folds_oneAndTwo :
    (∃ after : Nat → VectorPart,
      Group.Settles 2
        (fun rank => DistributedVector.assembleQueued
          ((oneAndTwoParts rank).afterCalls (oneAndTwoCalls rank)) (.member rank 2))
        (fun rank => ⟨after rank, .ok ()⟩) ∧
      (after 1).shard.values[0]? = some ((Scalar.zero.increase .one).increase .one)) ∧
    ∃ after : Nat → VectorPart,
      Group.Settles 2
        (fun rank => DistributedVector.assembleQueued
          ((oneAndTwoParts rank).afterCalls (oneAndTwoSets rank)) (.member rank 2))
        (fun rank => ⟨after rank, .ok ()⟩) ∧
      (after 1).shard.values[0]? = some .one ∧ (after 1).shard.values[1]? = some .zero := by
  constructor
  · have small : ∀ rank < 2,
        ((oneAndTwoParts rank).afterCalls (oneAndTwoCalls rank)).shard.queue.Addressable := by
      decide
    have agree : AgreeOnMode 2 fun rank =>
        (oneAndTwoParts rank).afterCalls (oneAndTwoCalls rank) := by
      decide
    obtain ⟨after, settled, facts⟩ :=
      assembleQueued_folds oneAndTwoCalls oneAndTwo_placed small agree
    obtain ⟨-, -, -, -, entries⟩ := facts 1 (by decide)
    obtain ⟨old, before, now⟩ := entries ⟨1, 3⟩ rfl 1 rfl
    cases before
    exact ⟨after, settled, now⟩
  · have small : ∀ rank < 2,
        ((oneAndTwoParts rank).afterCalls (oneAndTwoSets rank)).shard.queue.Addressable := by
      decide
    have agree : AgreeOnMode 2 fun rank =>
        (oneAndTwoParts rank).afterCalls (oneAndTwoSets rank) := by
      decide
    obtain ⟨after, settled, facts⟩ :=
      assembleQueued_folds oneAndTwoSets oneAndTwo_placed small agree
    obtain ⟨-, -, -, -, entries⟩ := facts 1 (by decide)
    obtain ⟨_, -, first⟩ := entries ⟨1, 3⟩ rfl 1 rfl
    obtain ⟨_, -, second⟩ := entries ⟨1, 3⟩ rfl 2 rfl
    exact ⟨after, settled, first, second⟩

end VectorPart

end HaloVector
