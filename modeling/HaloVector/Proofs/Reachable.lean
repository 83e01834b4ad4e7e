import HaloVector.Proofs.Batches
import HaloVector.Proofs.Endings
import HaloVector.Proofs.GhostSafety

/-!
# Reachable vectors

One rank's part of a vector as any use may have left it. Whoever uses it may make it over any
communicator, call it in any order and with anything, and be answered anything by its peers.

* `VectorPart.Reachable` has a constructor for each way to come to a part of a vector.
* `Shard.InStep` ties the extents, the topology and the queue of a shard to each other, and every
  reachable part is like this (`VectorPart.Reachable.inStep`).
* `VectorPart.Reachable.wellFormed`: a reachable part has a value for each id that its rank owns.
* `VectorPart.queueing_is_atomic`: a batch is queued as a whole or not at all, and what is queued
  always finds its owner.
-/

namespace HaloVector

/-! ## Shards in step -/

/-- The extents are those of the group, and what is queued is for ids that they know. -/
structure Shard.InStep (s : Shard) : Prop where
  ranks : s.extents.numRanks = s.topology.size
  sound : s.queue.Sound s.globalSize

namespace Shard

variable {s : Shard} {c : Communicator}

theorem inStep_zeroed {topology : Topology} {extents : Extents}
    (ranks : extents.numRanks = topology.size) (tags : VectorTags) :
    (zeroed topology extents tags).InStep := ⟨ranks, OpQueue.sound_empty _⟩

theorem InStep.with_empty (inStep : s.InStep) (values : List Scalar) :
    Shard.InStep { s with values, queue := .empty } := ⟨inStep.ranks, OpQueue.sound_empty _⟩

theorem InStep.with_values (inStep : s.InStep) (values : List Scalar) :
    Shard.InStep { s with values } := ⟨inStep.ranks, inStep.sound⟩

theorem inStep_of_ofExtents {extents : Extents} {tags : VectorTags}
    (made : ofExtents c extents tags = .ok s) : s.InStep := by
  obtain ⟨_, numbered, made⟩ := bind_eq_ok_iff.1 made
  cases made
  unfold Extents.checkNumRanks at numbered
  split at numbered
  · exact inStep_zeroed ‹_› tags
  · cases numbered

theorem exists_ofExtents_of_create {localSize globalSize : UInt64} {tags : VectorTags}
    (made : (create c localSize globalSize tags).run.CanEnd (.ok s)) :
    ∃ extents, ofExtents c extents tags = .ok s := by
  obtain ⟨extents, -, made⟩ := Collective.canEnd_bind_ok made
  exact ⟨extents, (Collective.canEnd_ofExcept_iff.1 made).symm⟩

theorem WellFormed.with_values (wellFormed : s.WellFormed) {values : List Scalar}
    (whole : values.length = s.values.length) (queue : OpQueue) :
    Shard.WellFormed { s with values, queue } :=
  ⟨wellFormed.1, wellFormed.2.trans (congrArg Except.ok whole.symm)⟩

theorem wellFormed_of_ofExtents {extents : Extents} {tags : VectorTags}
    (made : ofExtents c extents tags = .ok s) : s.WellFormed := by
  have ranks := (inStep_of_ofExtents made).ranks
  obtain ⟨_, -, made⟩ := bind_eq_ok_iff.1 made
  cases made
  exact wellFormed_zeroed ranks c.isMember_topology

theorem InStep.run (inStep : s.InStep) (call : ShardCall) : (call.run s).state.InStep := by
  obtain ⟨values, queue, same, -, sound, -⟩ := ShardCall.run_eq inStep.sound call
  rw [same]
  exact ⟨inStep.ranks, sound⟩

/-! ## Assemblies -/

theorem assemble_of_refused {e : VectorError} (refused : c.check s.topology = .error e) :
    s.assemble c = .done ⟨{ s with queue := .empty }, .error e⟩ := by
  unfold assemble
  rw [refused]
  rfl

theorem ensures_assemble (s : Shard) (c : Communicator) :
    (s.assemble c).Ensures fun _ attempt =>
      ∃ values, values.length = s.values.length ∧
        attempt.state = { s with values, queue := .empty } := by
  cases checked : c.check s.topology with
  | error e =>
    rw [assemble_of_refused checked]
    exact ⟨s.values, rfl, rfl⟩
  | ok =>
    rw [assemble_of_check checked]
    refine Program.Ensures.bind (ensures_assembleDrained ..) fun _ outcome known => ?_
    cases outcome with
    | error e => exact ⟨s.values, rfl, rfl⟩
    | ok values =>
      obtain ⟨_, -, kept⟩ := known values rfl
      exact ⟨values, kept.length, rfl⟩

/-- An update that was queued for a known id is never in the way of an assembly. -/
theorem InStep.namesNoId_assemble (inStep : s.InStep) {attempt : Attempt Shard}
    (ended : (s.assemble c).CanEnd attempt) : NamesNoId attempt.outcome := by
  cases checked : c.check s.topology with
  | error e =>
    rw [assemble_of_refused checked, Program.canEnd_done_iff] at ended
    subst ended
    unfold Communicator.check at checked
    split at checked
    · cases checked
    · cases checked
      exact nofun
  | ok =>
    rw [assemble_of_check checked] at ended
    obtain ⟨outcome, came, same⟩ := ended.bind
    cases Program.canEnd_done_iff.1 same
    have named := (blamesNoId_assembleDrained c inStep.sound.known_of_drained _ _ outcome
      came).namesNoId
    cases outcome with
    | error e => exact named.of_error
    | ok values => exact namesNoId_ok ()

theorem InStep.owner_lt (inStep : s.InStep) {id : UInt64} (known : id < s.globalSize) :
    ∃ owner, s.extents.findOwner id = .ok owner ∧ owner < s.topology.size :=
  ⟨_, Extents.findOwner_eq known, inStep.ranks ▸ Extents.ownerOf_lt known⟩

/-- All that is drained can be sorted by owner, and all owners are ranks of the group. -/
theorem InStep.exists_byOwner (inStep : s.InStep) :
    ∃ byOwner, updatesByOwner s.extents s.queue.drained.updates = .ok byOwner ∧
      ∀ owner ∈ byOwner.keys, owner < s.topology.size := by
  have known := inStep.sound.known_of_drained
  refine ⟨_, updatesByOwner_eq known, fun owner member => ?_⟩
  rw [← inStep.ranks]
  exact lt_numRanks_of_shares known member

theorem InStep.known_of_mem_operations (inStep : s.InStep) {operation : OpKind × Update}
    (member : operation ∈ s.queue.operations) : operation.2.id < s.globalSize :=
  inStep.sound.known operation.1 operation.2 (OpQueue.mem_operations_iff.1 member)

end Shard

/-! ## Halos that were made -/

namespace Halo

variable {c : Communicator} {h : Halo}

theorem seated_of_ofExtents {e : Extents} {ids : List UInt64} {tags : HaloTags}
    (ended : (ofExtents c e ids tags).run.CanEnd (.ok h)) :
    h.topology = c.topology ∧ h.extents.numRanks = h.topology.size := by
  obtain ⟨places, -, ended⟩ := Collective.canEnd_bind_ok ended
  obtain ⟨plan, built, ended⟩ := Collective.canEnd_bind_ok ended
  obtain ⟨slots, -, ended⟩ := Collective.canEnd_bind_ok ended
  cases Collective.canEnd_pure_iff.1 ended
  obtain ⟨_, ranks, -⟩ := (Plan.ensures_build c e ids tags.plan).of_canEnd built
  exact ⟨rfl, ranks⟩

/-- However it was made, a halo comes out of the same construction in the end. -/
theorem Made.exists_ofExtents (made : h.Made) :
    ∃ c e ids tags, (ofExtents c e ids tags).run.CanEnd (.ok h) := by
  obtain ⟨c, p, σ, t, s, making, finished⟩ := made
  have ended : p.run.CanEnd (.ok h) := ⟨σ, t, s, finished⟩
  cases making with
  | ofExtents e ids tags => exact ⟨c, e, ids, tags, ended⟩
  | create localSize globalSize ids tags =>
    obtain ⟨e, -, ended⟩ := Collective.canEnd_bind_ok ended
    exact ⟨c, e, ids, tags, ended⟩

theorem Made.ranks (made : h.Made) : h.extents.numRanks = h.topology.size := by
  obtain ⟨_, _, _, _, ended⟩ := made.exists_ofExtents
  exact (seated_of_ofExtents ended).2

theorem Made.member (made : h.Made) : h.topology.IsMember := by
  obtain ⟨c, _, _, _, ended⟩ := made.exists_ofExtents
  rw [(seated_of_ofExtents ended).1]
  exact c.isMember_topology

end Halo

theorem GhostedShard.exists_halo_of_create {c : Communicator} {localSize globalSize : UInt64}
    {ids : List UInt64} {tags : VectorTags} {v : GhostedShard}
    (made : (create c localSize globalSize ids tags).run.CanEnd (.ok v)) :
    ∃ halo : Halo, halo.Made ∧ v = .ofHalo halo tags := by
  obtain ⟨halo, ⟨σ, t, s, finished⟩, made⟩ := Collective.canEnd_bind_ok made
  cases Collective.canEnd_pure_iff.1 made
  exact ⟨halo, ⟨c, _, σ, t, s, .create _ _ _ _, finished⟩, rfl⟩

/-! ## Reachable parts -/

namespace VectorPart

/-- The same entries and ghosts with nothing queued. -/
def copy : VectorPart → VectorPart
  | plain shard => plain shard.copy
  | ghosted vector => ghosted vector.copy

/-- The same layout, all zero, with nothing queued. -/
def blank : VectorPart → VectorPart
  | plain shard => plain shard.blank
  | ghosted vector => ghosted vector.blank

/-- A part of a vector that some rank has come to have, with any peers. -/
inductive Reachable : VectorPart → Prop
  | created {c : Communicator} {localSize globalSize : UInt64} {tags : VectorTags} {s : Shard}
    (made : (Shard.create c localSize globalSize tags).run.CanEnd (.ok s)) :
    Reachable (plain s)
  | ofExtents {c : Communicator} {extents : Extents} {tags : VectorTags} {s : Shard}
    (made : Shard.ofExtents c extents tags = .ok s) : Reachable (plain s)
  | ghostsCreated {c : Communicator} {localSize globalSize : UInt64} {ids : List UInt64}
    {tags : VectorTags} {v : GhostedShard}
    (made : (GhostedShard.create c localSize globalSize ids tags).run.CanEnd (.ok v)) :
    Reachable (ghosted v)
  | ofHalo {h : Halo} (made : h.Made) (tags : VectorTags) : Reachable (ghosted (.ofHalo h tags))
  | changed {part : VectorPart} (before : Reachable part) (call : ShardCall) :
    Reachable (part.withShard (call.run part.shard).state)
  | assembled {part : VectorPart} (before : Reachable part) {c : Communicator}
    {attempt : Attempt VectorPart}
    (ended : (DistributedVector.assembleQueued part c).CanEnd attempt) : Reachable attempt.state
  | refreshed {part later : VectorPart} (before : Reachable part) {c : Communicator}
    (ended : (DistributedVector.updateGhosts part c).run.CanEnd (.ok later)) : Reachable later
  | copied {part : VectorPart} (before : Reachable part) : Reachable part.copy
  | blanked {part : VectorPart} (before : Reachable part) : Reachable part.blank
  /-- The owned part can be taken out of a vector with ghosts. -/
  | lent {v : GhostedShard} (before : Reachable (ghosted v)) : Reachable (plain v.shard)
  /-- The owned part and the ghosts can be replaced by those of another vector. -/
  | replaced {v : GhostedShard} {part : VectorPart} (before : Reachable (ghosted v))
    (other : Reachable part) :
    Reachable (ghosted { v with shard := part.shard, ghosts := part.ghosts })

theorem exists_values_of_assembled {part : VectorPart} {c : Communicator}
    {attempt : Attempt VectorPart}
    (ended : (DistributedVector.assembleQueued part c).CanEnd attempt) :
    ∃ values, values.length = part.shard.values.length ∧
      attempt.state = part.withShard { part.shard with values, queue := .empty } := by
  obtain ⟨left, came, same⟩ := Program.CanEnd.bind ended
  obtain ⟨_, values, whole, state⟩ := (part.shard.ensures_assemble c).of_canEnd came
  cases Program.canEnd_done_iff.1 same
  exact ⟨values, whole, congrArg part.withShard state⟩

/-- The halo of a part that has ghosts. -/
def halo? : VectorPart → Option Halo
  | plain _ => none
  | ghosted vector => some vector.halo

@[simp] theorem halo?_withShard (part : VectorPart) (s : Shard) :
    (part.withShard s).halo? = part.halo? := by
  cases part <;> rfl

/-- A refresh changes nothing but values. Their number stays if the halo is one that was made. -/
theorem exists_values_of_refreshed {part later : VectorPart} {c : Communicator}
    (ended : (DistributedVector.updateGhosts part c).run.CanEnd (.ok later)) :
    ∃ values, later.shard = { part.shard with values } ∧ later.halo? = part.halo? ∧
      ((∀ halo ∈ part.halo?, halo.Made) → values.length = part.shard.values.length) := by
  cases part with
  | plain s =>
    have whole : (DistributedVector.updateGhosts s c >>= fun s => pure (plain s)).run.CanEnd
        (.ok later) := ended
    obtain ⟨same, refreshed, came⟩ := Collective.canEnd_bind_ok whole
    obtain ⟨_, -, kept⟩ := Collective.canEnd_bind_ok refreshed
    cases Collective.canEnd_pure_iff.1 kept
    cases Collective.canEnd_pure_iff.1 came
    exact ⟨s.values, rfl, rfl, fun _ => rfl⟩
  | ghosted v =>
    have whole : (v.refresh c >>= fun v => pure (ghosted v)).run.CanEnd (.ok later) := ended
    obtain ⟨fresh, refreshed, came⟩ := Collective.canEnd_bind_ok whole
    obtain ⟨_, -, refreshed⟩ := Collective.canEnd_bind_ok refreshed
    obtain ⟨buffer, brought, filled⟩ := Collective.canEnd_bind_ok refreshed
    cases Collective.canEnd_pure_iff.1 filled
    cases Collective.canEnd_pure_iff.1 came
    refine ⟨_, rfl, rfl, fun made => ?_⟩
    have sound := (made v.halo rfl).sound
    obtain ⟨_, long, -⟩ := (Halo.ensures_refreshBuffer c sound v.buffer).of_canEnd brought
    -- the buffer is as long as before, so it still begins with all owned entries
    refine List.length_take_of_le ?_
    rw [long, GhostedShard.buffer, List.length_append]
    exact Nat.le_add_right _ _

/-- Whatever is done, extents, topology and queue stay in step. -/
theorem Reachable.inStep {part : VectorPart} (reachable : part.Reachable) :
    part.shard.InStep := by
  induction reachable with
  | created made =>
    obtain ⟨extents, made⟩ := Shard.exists_ofExtents_of_create made
    exact Shard.inStep_of_ofExtents made
  | ofExtents made => exact Shard.inStep_of_ofExtents made
  | ghostsCreated made =>
    obtain ⟨halo, built, rfl⟩ := GhostedShard.exists_halo_of_create made
    exact Shard.inStep_zeroed built.ranks _
  | ofHalo made tags => exact Shard.inStep_zeroed made.ranks tags
  | changed before call ih =>
    rw [shard_withShard]
    exact ih.run call
  | assembled before ended ih =>
    obtain ⟨values, -, same⟩ := exists_values_of_assembled ended
    rw [same, shard_withShard]
    exact ih.with_empty values
  | refreshed before ended ih =>
    obtain ⟨values, same, -⟩ := exists_values_of_refreshed ended
    rw [same]
    exact ih.with_values values
  | @copied part before ih => cases part <;> exact ih.with_empty _
  | @blanked part before ih => cases part <;> exact ih.with_empty _
  | lent before ih => exact ih
  | replaced before other ih again => exact again

/-- The halo of a reachable vector is one that was made. -/
theorem Reachable.made {part : VectorPart} (reachable : part.Reachable) :
    ∀ halo ∈ part.halo?, halo.Made := by
  induction reachable with
  | created made | ofExtents made => exact nofun
  | ghostsCreated made =>
    obtain ⟨halo, built, rfl⟩ := GhostedShard.exists_halo_of_create made
    rintro _ ⟨⟩
    exact built
  | ofHalo made tags =>
    rintro _ ⟨⟩
    exact made
  | changed before call ih => rwa [halo?_withShard]
  | assembled before ended ih =>
    obtain ⟨values, -, same⟩ := exists_values_of_assembled ended
    rwa [same, halo?_withShard]
  | refreshed before ended ih =>
    obtain ⟨values, -, same, -⟩ := exists_values_of_refreshed ended
    rwa [same]
  | @copied part before ih | @blanked part before ih => cases part <;> exact ih
  | lent before ih => exact nofun
  | replaced before other ih again => exact ih

/-- Whatever is done, a rank has one value for each id that it owns. -/
theorem Reachable.wellFormed {part : VectorPart} (reachable : part.Reachable) :
    part.shard.WellFormed := by
  induction reachable with
  | created made =>
    obtain ⟨extents, made⟩ := Shard.exists_ofExtents_of_create made
    exact Shard.wellFormed_of_ofExtents made
  | ofExtents made => exact Shard.wellFormed_of_ofExtents made
  | ghostsCreated made =>
    obtain ⟨halo, built, rfl⟩ := GhostedShard.exists_halo_of_create made
    exact Shard.wellFormed_zeroed built.ranks built.member
  | ofHalo made tags => exact Shard.wellFormed_zeroed made.ranks made.member
  | @changed part before call ih =>
    obtain ⟨values, queue, same, whole, -⟩ := ShardCall.run_eq before.inStep.sound call
    rw [shard_withShard, same]
    exact ih.with_values whole queue
  | assembled before ended ih =>
    obtain ⟨values, whole, same⟩ := exists_values_of_assembled ended
    rw [same, shard_withShard]
    exact ih.with_values whole .empty
  | refreshed before ended ih =>
    obtain ⟨values, same, -, whole⟩ := exists_values_of_refreshed ended
    rw [same]
    exact ih.with_values (whole before.made) _
  | @copied part before ih => cases part <;> exact ih.with_values rfl _
  | @blanked part before ih => cases part <;> exact ih.with_values (List.length_map _) _
  | lent before ih => exact ih
  | replaced before other ih again => exact again

/-! ## Queueing -/

/-- A batch that a reachable vector is given is queued as a whole, as if its updates were queued
one by one, or not at all. What there is to refuse is said by `Shard.Batched`; nothing changes
then, unless the other kind is waiting, which makes the queue mixed. Every id that waits has an
owner in the group, so an assembly sorts all updates by owner, and never ends because of an id. -/
theorem queueing_is_atomic {part : VectorPart} (reachable : part.Reachable) :
    (∀ kind ids values,
      let updates := List.zipWith Update.mk ids values
      let attempt := part.shard.enqueueAll kind ids values
      part.shard.Batched kind ids values attempt ∧
      (attempt.outcome = .ok () →
        attempt.state.queue.operations =
          part.shard.queue.operations ++ updates.map (kind, ·) ∧
        part.shard.enqueueEach kind updates = attempt) ∧
      (∀ e, attempt.outcome = .error e →
        attempt.state.queue.operations = part.shard.queue.operations) ∧
      (part.withShard attempt.state).Reachable) ∧
    (∀ operation ∈ part.shard.queue.operations, operation.2.id < part.shard.globalSize ∧
      ∃ owner, part.shard.extents.findOwner operation.2.id = .ok owner ∧
        owner < part.shard.topology.size) ∧
    ∀ c : Communicator,
      (c.check part.shard.topology = .ok () →
        ∃ byOwner, updatesByOwner part.shard.extents part.shard.queue.drained.updates =
            .ok byOwner ∧ ∀ owner ∈ byOwner.keys, owner < c.topology.size) ∧
      ∀ {σ : Type} (t : Transport σ) (s : σ), ∃ attempt,
        ((DistributedVector.assembleQueued part c).runOver t s).1 = .finished attempt ∧
          NamesNoId attempt.outcome := by
  have inStep := reachable.inStep
  refine ⟨fun kind ids values => ?_, fun operation member => ?_, fun c => ⟨fun passed => ?_, ?_⟩⟩
  · have batched := part.shard.batched_enqueueAll kind ids values
    exact ⟨batched, fun queued => ⟨batched.operations_of_ok queued,
        Shard.enqueueEach_eq_enqueueAll queued⟩,
      fun _ => batched.operations_of_error, reachable.changed (.queue (.batch kind ids values))⟩
  · have known := inStep.known_of_mem_operations member
    exact ⟨known, inStep.owner_lt known⟩
  · unfold Communicator.check at passed
    split at passed
    · rename_i same
      rw [same]
      exact inStep.exists_byOwner
    · cases passed
  · intro σ t s
    have ensured : (DistributedVector.assembleQueued part c).Ensures fun _ _ => True :=
      Program.Ensures.bind (part.shard.ensures_assemble c) fun _ _ _ => trivial
    obtain ⟨attempt, finished, -⟩ := ensured.runOver t s
    obtain ⟨left, came, same⟩ := Program.CanEnd.bind ⟨σ, t, s, finished⟩
    cases Program.canEnd_done_iff.1 same
    exact ⟨_, finished, inStep.namesNoId_assemble came⟩

/-- A set waits on the first of two ranks, for an entry of the other. -/
theorem queueing_is_atomic_waiting :
    ∃ part : VectorPart, part.Reachable ∧ part.shard.queue.operations = [(.set, ⟨2, .one⟩)] ∧
      (part.shard.enqueueAll .add [0, 1] [.one, .one]).outcome =
        .error (.mixedOperationModes 0 .add .set 1) ∧
      (part.shard.enqueueAll .add [0, 1] [.one, .one]).state.queue.operations =
        [(.set, ⟨2, .one⟩)] ∧
      part.shard.enqueueEach .set [⟨0, .one⟩, ⟨1, .one⟩] =
        part.shard.enqueueAll .set [0, 1] [.one, .one] ∧
      ∃ byOwner, updatesByOwner part.shard.extents part.shard.queue.drained.updates =
        .ok byOwner ∧ ∀ owner ∈ byOwner.keys, owner < 2 := by
  have made : Shard.ofExtents (.member 0 2) oneAndTwo default =
      .ok (.zeroed ⟨0, 2⟩ oneAndTwo default) := rfl
  have reachable := (Reachable.ofExtents made).changed (.queue (.one .set ⟨2, .one⟩))
  obtain ⟨batches, -, assembly⟩ := queueing_is_atomic reachable
  obtain ⟨-, -, refused, -⟩ := batches .add [0, 1] [.one, .one]
  obtain ⟨-, queued, -⟩ := batches .set [0, 1] [.one, .one]
  exact ⟨_, reachable, rfl, rfl, refused _ rfl, (queued rfl).2,
    (assembly (.member 0 2)).1 rfl⟩

end VectorPart

end HaloVector
