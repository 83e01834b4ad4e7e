import Mathlib.Data.List.Infix
import Mathlib.Tactic.Choose
import HaloVector.Proofs.GhostCalls

/-!
# Ghosts are snapshots

The ranks of a group have made a vector with ghosts and call its methods, each at its own pace.
Only what they do together they do in the same order. A ghost is always what its owner had at
the last exchange, although the owner may have gone on since, or not be there yet with all else.

* `Halo.Together.getElem?_places`: every ghost id leads to its slot, and no other id to any.
* `GhostedShard.settles_joint` is what the ranks do together, and
  `GhostedShard.settles_runCalls` is a whole run.
* `GhostedShard.ghosts_are_snapshots` is the result, with what reading by global id gives.
-/

namespace HaloVector

/-! ## Places of ghosts -/

theorem ghostPlacesFrom_eq_ok {e : Extents} {me place : Nat} {ids : List UInt64}
    {before places : Std.ExtTreeMap UInt64 Nat}
    (passed : ghostPlacesFrom e me before place ids = .ok places) {id : UInt64} {slot : Nat} :
    places[id]? = some slot ↔
      before[id]? = some slot ∨ ∃ index, ids[index]? = some id ∧ slot = place + index := by
  induction ids generalizing before place with
  | nil =>
    cases passed
    simp
  | cons head rest ih =>
    obtain ⟨_, -, passed⟩ := bind_eq_ok_iff.1 passed
    obtain ⟨absent, later⟩ : before[head]? = none ∧
        ghostPlacesFrom e me (before.insert head place) (place + 1) rest = .ok places := by
      dsimp only at passed
      split at passed
      · cases passed
      · rename_i unseen
        refine ⟨?_, passed⟩
        rwa [Std.ExtTreeMap.contains_eq_isSome_getElem?, Bool.not_eq_true,
          Option.isSome_eq_false_iff, Option.isNone_iff_eq_none] at unseen
    have inserted : (before.insert head place)[id]? =
        if head = id then some place else before[id]? := by
      rw [Std.ExtTreeMap.getElem?_insert]
      simp only [Std.LawfulEqOrd.compare_eq_iff_eq]
    rw [ih later, inserted]
    constructor
    · rintro (here | ⟨index, found, rfl⟩)
      · split at here
        · rename_i same
          cases here
          exact .inr ⟨0, congrArg some same, rfl⟩
        · exact .inl here
      · exact .inr ⟨index + 1, found, by omega⟩
    · rintro (known | ⟨_ | index, found, rfl⟩)
      -- the head was not there before, so nothing is lost by putting it in
      · have other : head ≠ id := by
          rintro rfl
          cases absent.symm.trans known
        exact .inl ((if_neg other).trans known)
      · exact .inl (if_pos (Option.some.inj found))
      · exact .inr ⟨index, found, by omega⟩

/-- The places of a halo are those of the ghost ids. -/
theorem Halo.Together.getElem?_places {size : Nat} {extents : Nat → Extents}
    {ids : Nat → List UInt64} {tags : HaloTags} {halos : Nat → Halo}
    (together : Together size extents ids tags halos) {rank : Nat} (inside : rank < size)
    {id : UInt64} {slot : Nat} :
    (halos rank).places[id]? = some slot ↔ (ids rank)[slot]? = some id := by
  obtain ⟨places, placed, passed⟩ := bind_eq_ok_iff.1 (together rank inside)
  obtain ⟨plan, -, passed⟩ := bind_eq_ok_iff.1 passed
  obtain ⟨slots, -, passed⟩ := bind_eq_ok_iff.1 passed
  obtain ⟨_, -, found⟩ := bind_eq_ok_iff.1 (Group.eq_ok_of_agreed placed).1
  have same : (halos rank).places = places := congrArg Halo.places (Except.ok.inj passed).symm
  rw [same, ghostPlacesFrom_eq_ok found]
  simp

namespace GhostedCall

/-- A call with the communicator `c`, by which a rank takes part in something. -/
def Joins (c : Communicator) (kind : Joint) (call : GhostedCall) : Prop :=
  match kind with
  | .assembly => call = .assemble c
  | .exchange => call = .refresh c
  | .norm => ∃ which, call = .norm c which

theorem joins_of_joint? {t : Topology} {group : Communicator} {kind : Joint} {call : GhostedCall}
    (own : ∀ c ∈ call.communicator?, c.topology = t → c = group)
    (joint : call.joint? t = some kind) : call.Joins group kind := by
  cases call with
  | change call => cases joint
  | assemble c =>
    obtain ⟨same, ⟨⟩⟩ := Option.ite_none_right_eq_some.1 joint
    exact congrArg assemble (own c rfl same)
  | refresh c =>
    obtain ⟨same, ⟨⟩⟩ := Option.ite_none_right_eq_some.1 joint
    exact congrArg refresh (own c rfl same)
  | norm c which =>
    obtain ⟨same, ⟨⟩⟩ := Option.ite_none_right_eq_some.1 joint
    exact ⟨which, congrArg (norm · which) (own c rfl same)⟩

/-- Calls that a rank of a group can make while so many updates are waiting. -/
structure Allowed (size rank waiting : Nat) (calls : List GhostedCall) : Prop where
  /-- A communicator with the topology of the rank is that of the group. -/
  own : ∀ call ∈ calls, ∀ c ∈ call.communicator?, c.topology = ⟨rank, size⟩ →
    c = .member rank size
  /-- The updates that wait at any one time fit into one buffer. -/
  room : ∀ past, past <+: calls →
    past.foldl waitingAfter waiting * Update.recordSize ≤ lastIndex

/-- The calls before and after one of the calls. -/
theorem Allowed.cut {size rank waiting : Nat} {before rest : List GhostedCall}
    {call : GhostedCall} (allowed : Allowed size rank waiting (before ++ call :: rest)) :
    (∀ c ∈ call.communicator?, c.topology = ⟨rank, size⟩ → c = .member rank size) ∧
      before.foldl waitingAfter waiting * Update.recordSize ≤ lastIndex ∧
      Allowed size rank (call.waitingAfter (before.foldl waitingAfter waiting)) rest := by
  refine ⟨allowed.own call (List.mem_append_right _ List.mem_cons_self),
    allowed.room before (List.prefix_append _ _),
    fun other member => allowed.own other
      (List.mem_append_right _ (List.mem_cons_of_mem _ member)), fun past ahead => ?_⟩
  have longer := allowed.room (before ++ call :: past)
    ((List.prefix_append_right_inj _).2 ((List.prefix_cons_inj _).2 ahead))
  rwa [List.foldl_append] at longer

end GhostedCall

namespace GhostedShard

/-! ## Vectors of a group -/

/-- Vectors with ghosts that the ranks of a group have made together. -/
structure Founded (size : Nat) (e : Extents) (ids : Nat → List UInt64) (tags : VectorTags)
    (first : Nat → GhostedShard) : Prop where
  together : Halo.Together size (fun _ => e) ids tags.halo fun rank => (first rank).halo
  blank : ∀ rank < size, first rank = .ofHalo (first rank).halo tags

/-- The ghosts of a rank after an exchange. -/
def freshGhosts (e : Extents) (ids : Nat → List UInt64) (rank : Nat)
    (owned : Nat → List Scalar) : List Scalar :=
  (ids rank).map (Halo.original (fun _ => e) owned rank)

section founded

variable {size : Nat} {e : Extents} {ids : Nat → List UInt64} {tags : VectorTags}
  {first : Nat → GhostedShard} (founded : Founded size e ids tags first)

include founded

section one

variable {rank : Nat} (inside : rank < size)

include inside

theorem Founded.numRanks_eq : e.numRanks = size := (founded.together.good inside rank inside).1

theorem Founded.shard_eq : (first rank).shard = .zeroed ⟨rank, size⟩ e tags := by
  rw [founded.blank rank inside, ofHalo, founded.together.topology_eq inside,
    founded.together.extents_eq inside]

theorem Founded.topology_eq : (first rank).shard.topology = ⟨rank, size⟩ := by
  rw [founded.shard_eq inside]
  rfl

theorem Founded.extents_eq : (first rank).shard.extents = e := by
  rw [founded.shard_eq inside]
  rfl

theorem Founded.tags_eq : (first rank).shard.tags = tags := by
  rw [founded.shard_eq inside]
  rfl

theorem Founded.ghosts_eq : (first rank).ghosts = List.replicate (ids rank).length .zero := by
  rw [founded.blank rank inside, ofHalo, Halo.numGhosts, founded.together.ghostIds_eq inside]

theorem Founded.length_values : (first rank).shard.values.length = (e.rangeAt rank).length := by
  have ranged := Extents.range_eq (founded.numRanks_eq inside ▸ inside : rank < e.numRanks)
  rw [founded.shard_eq inside, Shard.zeroed, Extents.localSize, ranged]
  exact List.length_replicate

theorem Founded.localSize_eq :
    (first rank).halo.localSize = (first rank).shard.values.length :=
  (founded.together.localSize_eq inside).trans (founded.length_values inside).symm

theorem Founded.kept : (first rank).Kept 0 (first rank) where
  halo := rfl
  topology := rfl
  extents := rfl
  tags := rfl
  owned := rfl
  ghosts := rfl
  sound := by
    rw [founded.shard_eq inside]
    exact OpQueue.sound_empty _
  waiting := by
    rw [founded.shard_eq inside]
    exact Nat.le_refl 0

theorem topology_eq_of_kept {waiting : Nat} {v : GhostedShard}
    (kept : (first rank).Kept waiting v) : v.shard.topology = ⟨rank, size⟩ :=
  kept.topology.trans (founded.topology_eq inside)

theorem check_eq_of_kept {waiting : Nat} {v : GhostedShard}
    (kept : (first rank).Kept waiting v) :
    (Communicator.member rank size).check v.shard.topology = .ok () :=
  topology_eq_of_kept founded inside kept ▸ Communicator.check_member inside

theorem extents_eq_of_kept {waiting : Nat} {v : GhostedShard}
    (kept : (first rank).Kept waiting v) : v.shard.extents = e :=
  kept.extents.trans (founded.extents_eq inside)

end one

/-! ## What ranks do together -/

section joint

variable {v : Nat → GhostedShard} {waiting : Nat → Nat}
  (kept : ∀ rank < size, (first rank).Kept (waiting rank) (v rank))

include kept

/-- The vectors have all that an assembly needs. -/
theorem ready_of_kept
    (room : ∀ rank < size, waiting rank * Update.recordSize ≤ lastIndex) :
    Group.Ready size (fun rank => (v rank).shard.extents) (fun rank => (v rank).shard.values)
      fun rank => (v rank).shard.queue.drained := by
  have laid : ∀ rank < size, (v rank).shard.extents = e := fun rank inside =>
    extents_eq_of_kept founded inside (kept rank inside)
  exact {
    ranks := fun rank inside => laid rank inside ▸ founded.numRanks_eq inside
    room := fun rank inside => Nat.le_of_eq <| by
      rw [laid rank inside, (kept rank inside).owned, founded.length_values inside]
    known := fun rank inside => by
      rw [(kept rank inside).extents]
      exact (kept rank inside).sound.known_of_drained
    small := fun rank inside => Nat.le_trans (Nat.mul_le_mul_right _
      (Nat.le_trans (OpQueue.length_drained_le _) (kept rank inside).waiting)) (room rank inside) }

/-- What an assembly makes of the owned entries on a rank. -/
def assembledOn (size : Nat) (v : Nat → GhostedShard) (rank : Nat) :
    Except VectorError (List Scalar) :=
  Group.assembledTo size (fun rank => (v rank).shard.extents) (fun rank => (v rank).shard.values)
    (fun rank => (v rank).shard.queue.drained) rank

theorem settles_assemblies
    (room : ∀ rank < size, waiting rank * Update.recordSize ≤ lastIndex) :
    Group.Settles size (fun rank => (GhostedCall.assemble (.member rank size)).run (v rank))
      fun rank => DistributedVector.withAttempt (v rank)
        ((v rank).shard.assembled (assembledOn size v rank)) :=
  (Group.settles_assemble
    (fun rank inside => topology_eq_of_kept founded inside (kept rank inside))
    (fun rank inside => congrArg VectorTags.assembly
      ((kept rank inside).tags.trans (founded.tags_eq inside)))
    (ready_of_kept founded kept room)).map fun rank => DistributedVector.withAttempt (v rank)

omit founded in
theorem kept_of_assembled {rank : Nat} (inside : rank < size) :
    (first rank).Kept 0 { v rank with
      shard := ((v rank).shard.assembled (assembledOn size v rank)).state } := by
  cases came : assembledOn size v rank with
  | ok values =>
    exact (kept rank inside).withShard (Group.length_of_assembledTo came)
      (OpQueue.sound_empty _) (Nat.le_refl 0)
  | error error =>
    exact (kept rank inside).withShard rfl (OpQueue.sound_empty _) (Nat.le_refl 0)

theorem settles_exchanges : Group.Settles size
    (fun rank => (GhostedCall.refresh (.member rank size)).run (v rank)) fun rank =>
      ⟨{ v rank with ghosts := freshGhosts e ids rank fun rank => (v rank).shard.values },
        .ok ()⟩ := by
  let owned (rank : Nat) := (v rank).shard.values
  have sized : ∀ rank < size, (first rank).halo.localSize = (owned rank).length ∧
      (first rank).halo.numGhosts = (v rank).ghosts.length := by
    intro rank inside
    refine ⟨(founded.localSize_eq inside).trans (kept rank inside).owned.symm, ?_⟩
    rw [(kept rank inside).ghosts, founded.ghosts_eq inside, Halo.numGhosts,
      founded.together.ghostIds_eq inside, List.length_replicate]
  have fetched := (Group.settles_refreshBuffer founded.together fun rank =>
    owned rank ++ (v rank).ghosts).congr (fun _ _ => rfl) fun rank inside =>
      Group.refreshedBuffer_eq founded.together sized inside
  let taken (rank : Nat) (buffer : List Scalar) : GhostedShard := { v rank with
    shard := { (v rank).shard with values := buffer.take (v rank).shard.localSize }
    ghosts := buffer.drop (v rank).shard.localSize }
  have moved := (Collective.settles_map taken fetched).map fun rank => Attempt.orElse (v rank)
  refine moved.congr (fun rank inside => ?_) fun rank inside => ?_
  · show _ = Program.bind ((v rank).refresh (.member rank size)).run _
    unfold refresh
    rw [check_eq_of_kept founded inside (kept rank inside), Collective.ofExcept_ok_bind,
      ← (kept rank inside).halo]
    rfl
  · have front : (owned rank ++ freshGhosts e ids rank owned).take (v rank).shard.localSize =
        owned rank := List.take_left' rfl
    have back : (owned rank ++ freshGhosts e ids rank owned).drop (v rank).shard.localSize =
        freshGhosts e ids rank owned := List.drop_left' rfl
    show Attempt.mk (taken rank (owned rank ++ freshGhosts e ids rank owned)) _ = _
    simp only [taken, front, back]
    rfl

theorem settles_norms (which : Nat → Norm) : Group.Settles size
    (fun rank => (GhostedCall.norm (.member rank size) (which rank)).run (v rank))
    fun rank => ⟨v rank, .ok ()⟩ := by
  have normed := Group.settles_norm which fun rank inside =>
    check_eq_of_kept founded inside (kept rank inside)
  exact normed.map fun rank total => (⟨v rank, total.map fun _ => ()⟩ : Attempt GhostedShard)

/-- What ranks do together keeps what is to be kept, and is an exchange for all or for none. -/
theorem settles_joint (kind : Joint) {call : Nat → GhostedCall}
    (joins : ∀ rank < size, (call rank).Joins (.member rank size) kind)
    (room : ∀ rank < size, waiting rank * Update.recordSize ≤ lastIndex) :
    ∃ (attempts : Nat → Attempt GhostedShard) (shots : List (Nat → List Scalar)),
      Group.Settles size (fun rank => (call rank).run (v rank)) attempts ∧
      ∀ rank < size, Follows (first rank) rank (freshGhosts e ids rank) shots (waiting rank)
        (v rank) [⟨call rank, (attempts rank).outcome, (attempts rank).state⟩] := by
  cases kind with
  | assembly =>
    have same : ∀ rank < size, call rank = .assemble (.member rank size) := joins
    refine ⟨_, [], .of_eq (fun rank inside => ?_) (settles_assemblies founded kept room),
      fun rank inside => ?_⟩
    · rw [same rank inside]
    · rw [same rank inside]
      exact .quiet (kept_of_assembled kept inside) ⟨rfl, nofun⟩ (.nil _ _)
  | exchange =>
    have same : ∀ rank < size, call rank = .refresh (.member rank size) := joins
    refine ⟨_, [fun rank => (v rank).shard.values],
      .of_eq (fun rank inside => ?_) (settles_exchanges founded kept), fun rank inside => ?_⟩
    · rw [same rank inside]
    · rw [same rank inside]
      refine .exchange ((kept rank inside).withGhosts ?_) ⟨⟨_, rfl⟩, rfl, rfl, rfl⟩ (.nil _ _)
      rw [freshGhosts, List.length_map, founded.ghosts_eq inside, List.length_replicate]
  | norm =>
    have : Nonempty Norm := ⟨.l1⟩
    choose! which same using joins
    refine ⟨_, [], .of_eq (fun rank inside => ?_) (settles_norms founded kept which),
      fun rank inside => ?_⟩
    · rw [same rank inside]
    · rw [same rank inside]
      exact .quiet (kept rank inside) ⟨rfl, nofun⟩ (.nil _ _)

end joint

/-! ## Whole runs -/

theorem settles_alone {v : Nat → GhostedShard} {waiting : Nat → Nat}
    {calls : Nat → List GhostedCall}
    (kept : ∀ rank < size, (first rank).Kept (waiting rank) (v rank))
    (apart : ∀ rank < size, ∀ call ∈ calls rank, call.joint? ⟨rank, size⟩ = none) :
    ∃ pasts : Nat → List Moment,
      Group.Settles size (fun rank => (v rank).runCalls (calls rank)) pasts ∧
      ∀ rank < size, (pasts rank).map Moment.call = calls rank ∧
        Follows (first rank) rank (freshGhosts e ids rank) [] (waiting rank) (v rank)
          (pasts rank) := by
  have alone : ∀ rank < size, ∃ past, ((v rank).runCalls (calls rank)).Computes past ∧
      past.map Moment.call = calls rank ∧
      Follows (first rank) rank (freshGhosts e ids rank) [] (waiting rank) (v rank) past := by
    intro rank inside
    refine exists_alone ?_ (kept rank inside)
    rw [founded.topology_eq inside]
    exact apart rank inside
  choose! pasts computed facts using alone
  exact ⟨pasts, .of_computes computed, facts⟩

/-- Ranks that take part in the same things in the same order come to the end of their calls,
and have had the same exchanges. -/
theorem settles_runCalls (kinds : List Joint) {v : Nat → GhostedShard} {waiting : Nat → Nat}
    {calls : Nat → List GhostedCall}
    (kept : ∀ rank < size, (first rank).Kept (waiting rank) (v rank))
    (order : ∀ rank < size, (calls rank).filterMap (GhostedCall.joint? ⟨rank, size⟩) = kinds)
    (allowed : ∀ rank < size, GhostedCall.Allowed size rank (waiting rank) (calls rank)) :
    ∃ (traces : Nat → List Moment) (shots : List (Nat → List Scalar)),
      Group.Settles size (fun rank => (v rank).runCalls (calls rank)) traces ∧
      ∀ rank < size, (traces rank).map Moment.call = calls rank ∧
        Follows (first rank) rank (freshGhosts e ids rank) shots (waiting rank) (v rank)
          (traces rank) := by
  induction kinds generalizing v waiting calls with
  | nil =>
    obtain ⟨pasts, ran, facts⟩ := settles_alone founded kept fun rank inside =>
      List.filterMap_eq_nil_iff.1 (order rank inside)
    exact ⟨pasts, [], ran, facts⟩
  | cons kind kinds ih =>
    -- every rank has some calls of its own, then one with the others
    have cut := fun rank inside => List.filterMap_eq_cons_iff.1 (order rank inside)
    choose! before call rest parted apart joint order using cut
    have allowed : ∀ rank < size,
        GhostedCall.Allowed size rank (waiting rank) (before rank ++ call rank :: rest rank) :=
      fun rank inside => parted rank inside ▸ allowed rank inside
    obtain ⟨pasts, begun, facts⟩ := settles_alone founded kept apart
    let now (rank : Nat) := (v rank).after (pasts rank)
    let queued (rank : Nat) := (before rank).foldl GhostedCall.waitingAfter (waiting rank)
    have keptNow : ∀ rank < size, (first rank).Kept (queued rank) (now rank) := by
      intro rank inside
      obtain ⟨named, follows⟩ := facts rank inside
      have keeps := follows.kept (kept rank inside)
      rwa [named] at keeps
    have joins : ∀ rank < size, (call rank).Joins (.member rank size) kind := fun rank inside =>
      GhostedCall.joins_of_joint? (allowed rank inside).cut.1 (joint rank inside)
    obtain ⟨attempts, shots, met, meets⟩ := settles_joint founded keptNow kind joins
      fun rank inside => (allowed rank inside).cut.2.1
    have keptLater : ∀ rank < size,
        (first rank).Kept ((call rank).waitingAfter (queued rank)) (attempts rank).state :=
      fun rank inside => (meets rank inside).kept (keptNow rank inside)
    obtain ⟨later, more, ran, runs⟩ := ih keptLater order
      fun rank inside => (allowed rank inside).cut.2.2
    let moment (rank : Nat) : Moment :=
      ⟨call rank, (attempts rank).outcome, (attempts rank).state⟩
    have onward : Group.Settles size
        (fun rank => ((call rank).run (now rank)).bind fun attempt =>
          (attempt.state.runCalls (rest rank)).bind fun later =>
            .done (⟨call rank, attempt.outcome, attempt.state⟩ :: later))
        fun rank => moment rank :: later rank :=
      met.bind (ran.map fun rank later => moment rank :: later)
    have whole : Group.Settles size
        (fun rank => ((v rank).runCalls (before rank)).bind fun past =>
          (((v rank).after past).runCalls (call rank :: rest rank)).bind fun later =>
            .done (past ++ later))
        fun rank => pasts rank ++ moment rank :: later rank :=
      begun.bind (onward.map fun rank later => pasts rank ++ later)
    refine ⟨_, shots ++ more, .of_eq (fun rank inside => ?_) whole,
      fun rank inside => ⟨?_, ?_⟩⟩
    · rw [parted rank inside, runCalls_append]
    · rw [List.map_append, (facts rank inside).1, List.map_cons, (runs rank inside).1,
        parted rank inside]
    · refine (facts rank inside).2.append ?_
      rw [(facts rank inside).1]
      exact (meets rank inside).append (runs rank inside).2

/-! ## Reading by global id -/

section reading

variable {rank : Nat} (inside : rank < size) {waiting : Nat} {v : GhostedShard}
  (kept : (first rank).Kept waiting v)

include inside kept

theorem ownedRange_of_kept : v.shard.ownedRange = e.rangeAt rank := by
  have ranged := Extents.range_eq (founded.numRanks_eq inside ▸ inside : rank < e.numRanks)
  rw [Shard.ownedRange, topology_eq_of_kept founded inside kept,
    extents_eq_of_kept founded inside kept, ranged]

theorem length_values_of_kept : v.shard.values.length = (e.rangeAt rank).length :=
  kept.owned.trans (founded.length_values inside)

theorem length_ghosts_of_kept : v.ghosts.length = (ids rank).length := by
  rw [kept.ghosts, founded.ghosts_eq inside, List.length_replicate]

theorem localSize_of_kept : v.halo.localSize = v.shard.values.length := by
  rw [kept.halo, founded.localSize_eq inside, kept.owned]

theorem not_owned_of_ghost {id : UInt64} (member : id ∈ ids rank) :
    id < v.shard.globalSize ∧ ¬v.shard.ownedRange.contains id := by
  obtain ⟨ranks, good⟩ := founded.together.good inside rank inside
  rw [Shard.globalSize, extents_eq_of_kept founded inside kept,
    ownedRange_of_kept founded inside kept]
  refine ⟨good.known id member, fun held => good.others id member ?_⟩
  have owned := Extents.findOwner_eq_ok_iff.2 ⟨_, Extents.range_eq (ranks.symm ▸ inside), held⟩
  rw [Extents.findOwner_eq (good.known id member)] at owned
  exact Except.ok.inj owned

theorem getGlobal_owned {id : UInt64} (held : v.shard.ownedRange.contains id) :
    ∃ value, v.shard.values[v.shard.ownedRange.offset id]? = some value ∧
      v.getGlobal id = .ok value := by
  have present : v.shard.ownedRange.offset id < v.shard.values.length := by
    rw [length_values_of_kept founded inside kept, ← ownedRange_of_kept founded inside kept]
    exact IdRange.offset_lt held
  refine ⟨_, List.getElem?_eq_getElem present, ?_⟩
  unfold getGlobal
  dsimp only
  rw [if_pos held]
  show Except.ok ((v.shard.values ++ v.ghosts).getD _ _) = _
  rw [List.getD_eq_getElem?_getD, List.getElem?_append_left present,
    List.getElem?_eq_getElem present, Option.getD_some]

theorem getGlobal_ghost {id : UInt64} {slot : Nat} (here : (ids rank)[slot]? = some id) :
    ∃ value, v.ghosts[slot]? = some value ∧ v.getGlobal id = .ok value := by
  obtain ⟨known, foreign⟩ := not_owned_of_ghost founded inside kept (List.mem_of_getElem? here)
  have present : slot < v.ghosts.length := by
    rw [length_ghosts_of_kept founded inside kept]
    exact (List.getElem?_eq_some_iff.1 here).1
  have placed : v.halo.places[id]? = some slot := by
    rw [kept.halo]
    exact (founded.together.getElem?_places inside).2 here
  refine ⟨_, List.getElem?_eq_getElem present, ?_⟩
  unfold getGlobal
  dsimp only
  rw [if_neg foreign, if_neg (UInt64.not_le.2 known), Halo.localIndex, placed,
    localSize_of_kept founded inside kept]
  show Except.ok ((v.shard.values ++ v.ghosts).getD _ _) = _
  rw [List.getD_eq_getElem?_getD, List.getElem?_append_right (Nat.le_add_right _ _),
    Nat.add_sub_cancel_left, List.getElem?_eq_getElem present, Option.getD_some]

theorem getGlobal_unknown {id : UInt64} (known : id < v.shard.globalSize)
    (foreign : ¬v.shard.ownedRange.contains id) (absent : id ∉ ids rank) :
    v.getGlobal id = .error (.unknownGhostId id) := by
  have unplaced : v.halo.places[id]? = none := by
    rw [kept.halo]
    refine Option.eq_none_iff_forall_ne_some.2 fun slot found => absent ?_
    exact List.mem_of_getElem? ((founded.together.getElem?_places inside).1 found)
  unfold getGlobal
  dsimp only
  rw [if_neg foreign, if_neg (UInt64.not_le.2 known), Halo.localIndex, unplaced]
  rfl

theorem getGlobal_beyond_iff {id : UInt64} :
    v.getGlobal id = .error (.invalidGlobalId id v.shard.globalSize) ↔
      v.shard.globalSize ≤ id := by
  constructor
  · intro refused
    by_contra within
    have known := UInt64.not_le.1 within
    by_cases held : v.shard.ownedRange.contains id
    · obtain ⟨value, -, found⟩ := getGlobal_owned founded inside kept held
      cases found.symm.trans refused
    · by_cases member : id ∈ ids rank
      · obtain ⟨slot, here⟩ := List.getElem?_of_mem member
        obtain ⟨value, -, found⟩ := getGlobal_ghost founded inside kept here
        cases found.symm.trans refused
      · cases (getGlobal_unknown founded inside kept known held member).symm.trans refused
  · intro beyond
    have foreign : ¬v.shard.ownedRange.contains id := by
      intro held
      have ranged := Extents.range_eq (founded.numRanks_eq inside ▸ inside : rank < e.numRanks)
      rw [ownedRange_of_kept founded inside kept] at held
      have below := Extents.lt_globalSize_of_findOwner
        (Extents.findOwner_eq_ok_iff.2 ⟨_, ranged, held⟩)
      rw [Shard.globalSize, extents_eq_of_kept founded inside kept] at beyond
      exact UInt64.not_le.2 below beyond
    unfold getGlobal
    dsimp only
    rw [if_neg foreign, if_pos beyond]
    rfl

end reading

/-- What an exchange brings for an id is what its owner had when it made that exchange. -/
theorem exists_original {traces : Nat → List Moment} {shots : List (Nat → List Scalar)}
    (follows : ∀ rank < size, Follows (first rank) rank (freshGhosts e ids rank) shots 0
      (first rank) (traces rank))
    {before : Nat} {owned : Nat → List Scalar} (shot : shots[before]? = some owned)
    {rank : Nat} (inside : rank < size) {id : UInt64} (member : id ∈ ids rank) :
    ∃ owner < size, ∃ there, e.findOwner id = .ok owner ∧
      (exchanges (traces owner))[before]? = some there ∧
      there.shard.ownedRange.contains id ∧
      there.shard.values[there.shard.ownedRange.offset id]? =
        some (Halo.original (fun _ => e) owned rank id) := by
  obtain ⟨-, good⟩ := founded.together.good inside rank inside
  obtain ⟨within, held⟩ := founded.together.held inside member
  let owner := e.ownerOf id
  -- the owner has made as many exchanges, so one of its own is at this place
  have list := congrArg (·[before]?) (follows owner within).exchanges_eq
  simp only [List.getElem?_map, shot, Option.map_some] at list
  obtain ⟨there, found, values⟩ := Option.map_eq_some_iff.1 list
  obtain ⟨waiting, kept⟩ := (follows owner within).kept_of_mem (List.mem_of_getElem? found)
  have range := ownedRange_of_kept founded within kept
  have present : (e.rangeAt owner).offset id < (owned owner).length := by
    rw [← values, length_values_of_kept founded within kept]
    exact IdRange.offset_lt held
  refine ⟨owner, within, there, Extents.findOwner_eq (good.known id member), found,
    range ▸ held, ?_⟩
  rw [range, values, Halo.original, Halo.entryOn, List.getD_eq_getElem?_getD,
    List.getElem?_eq_getElem present, Option.getD_some]

/-- After some of the calls, ghosts are what their owners had at the last exchange until then. -/
theorem exists_snapshot {traces : Nat → List Moment} {shots earlier : List (Nat → List Scalar)}
    (follows : ∀ rank < size, Follows (first rank) rank (freshGhosts e ids rank) shots 0
      (first rank) (traces rank))
    (listed : earlier <+: shots) {rank : Nat} {past : List Moment}
    (begun : Follows (first rank) rank (freshGhosts e ids rank) earlier 0 (first rank) past)
    {before : Nat} (counted : (exchanges past).length = before + 1) (inside : rank < size)
    {slot : Nat} {id : UInt64} (here : (ids rank)[slot]? = some id) :
    ∃ owner < size, ∃ there value, e.findOwner id = .ok owner ∧
      (exchanges (traces owner))[before]? = some there ∧
      there.shard.ownedRange.contains id ∧
      there.shard.values[there.shard.ownedRange.offset id]? = some value ∧
      ((first rank).after past).ghosts[slot]? = some value := by
  have lengths : earlier.length = before + 1 := by
    have lists := congrArg List.length begun.exchanges_eq
    rw [List.length_map, List.length_map, counted] at lists
    exact lists.symm
  obtain ⟨owned, last⟩ : ∃ owned, earlier[before]? = some owned :=
    ⟨_, List.getElem?_eq_getElem (by omega)⟩
  -- what is listed up to here is where the whole list begins, and that is one for all ranks
  have shot : shots[before]? = some owned := by
    obtain ⟨rest, rfl⟩ := listed
    rw [List.getElem?_append_left (List.getElem?_eq_some_iff.1 last).1, last]
  have current : ((first rank).after past).ghosts = freshGhosts e ids rank owned := by
    rw [begun.ghosts_eq, List.getLast?_eq_getElem?, lengths, Nat.add_sub_cancel, last]
    rfl
  obtain ⟨owner, within, there, owns, found, held, value⟩ :=
    exists_original founded follows shot inside (List.mem_of_getElem? here)
  refine ⟨owner, within, there, _, owns, found, held, value, ?_⟩
  rw [current, freshGhosts, List.getElem?_map, here, Option.map_some]

end founded

/-! ## Snapshots -/

/-- Calls by which the ranks of a group keep in step: what they do together they do in the same
order. -/
structure InStep (size : Nat) (calls : Nat → List GhostedCall) : Prop where
  allowed : ∀ rank < size, GhostedCall.Allowed size rank 0 (calls rank)
  order : ∀ one < size, ∀ other < size,
    (calls one).filterMap (GhostedCall.joint? ⟨one, size⟩) =
      (calls other).filterMap (GhostedCall.joint? ⟨other, size⟩)

/-- What is true of the vector of a rank, which was `start`, after some of its calls. The calls
of all ranks to their ends are `traces`. -/
structure Snapshot (size : Nat) (ids : Nat → List UInt64) (traces : Nat → List Moment)
    (rank : Nat) (past : List Moment) (start now : GhostedShard) : Prop where
  /-- The vector stays with its rank and its ids. -/
  fixed : now.shard.topology = start.shard.topology ∧ now.shard.extents = start.shard.extents ∧
    now.halo = start.halo
  /-- There is room for every owned entry and every ghost, and for nothing else. -/
  whole : now.shard.extents.localSize rank = .ok now.shard.localSize ∧
    now.buffer.length = now.shard.localSize + (ids rank).length
  /-- Before the first exchange all ghosts are zero. -/
  unrefreshed : exchanges past = [] → now.ghosts = List.replicate (ids rank).length .zero
  /-- Later a ghost is what its owner had at the same exchange as the last of this rank. -/
  refreshed : ∀ before, (exchanges past).length = before + 1 →
    ∀ (slot : Nat) (id : UInt64), (ids rank)[slot]? = some id →
      ∃ owner < size, ∃ there value, now.shard.extents.findOwner id = .ok owner ∧
        (exchanges (traces owner))[before]? = some there ∧
        there.shard.ownedRange.contains id ∧
        there.shard.values[there.shard.ownedRange.offset id]? = some value ∧
        now.ghosts[slot]? = some value
  /-- An owned id reads the owned entry. -/
  ownedEntry : ∀ id, now.shard.ownedRange.contains id →
    ∃ value, now.shard.values[now.shard.ownedRange.offset id]? = some value ∧
      now.getGlobal id = .ok value
  /-- A ghost id reads the ghost. -/
  ghostEntry : ∀ (slot : Nat) (id : UInt64), (ids rank)[slot]? = some id →
    ∃ value, now.ghosts[slot]? = some value ∧ now.getGlobal id = .ok value
  /-- An id that does not exist is refused as such, and no other id is. -/
  beyond : ∀ id, now.getGlobal id = .error (.invalidGlobalId id now.shard.globalSize) ↔
    now.shard.globalSize ≤ id
  /-- Any other id is no ghost. -/
  unknown : ∀ id, id < now.shard.globalSize → ¬now.shard.ownedRange.contains id →
    id ∉ ids rank → now.getGlobal id = .error (.unknownGhostId id)
  /-- An exchange changes nothing else, and goes well unless it is not with the group. -/
  exchange : ∀ (moment : Moment) (c : Communicator), past ++ [moment] <+: traces rank →
    moment.call = .refresh c → moment.after.shard = now.shard ∧ moment.after.halo = now.halo ∧
      (moment.outcome = .ok () ∨ c.topology ≠ ⟨rank, size⟩ ∧ moment.after = now)

section made

variable {size : Nat} {sizes globals : Nat → UInt64} {ids : Nat → List UInt64}
  {tags : VectorTags} {first : Nat → GhostedShard}

theorem settles_create : Group.Settles size
    (fun rank => (create (.member rank size) (sizes rank) (globals rank) (ids rank) tags).run)
    fun rank => Halo.created size sizes globals ids tags.halo rank >>= fun halo =>
      .ok (ofHalo halo tags) :=
  Collective.settles_bind_computes Halo.settles_create fun _ _ _ _ => Program.computes_done _

theorem exists_founded
    (made : Group.Reaches
      (Group.ofRanks size fun rank =>
        (create (.member rank size) (sizes rank) (globals rank) (ids rank) tags).run)
      (Group.ofRanks size fun rank => .done (.ok (first rank)))) :
    ∃ e, Founded size e ids tags first := by
  have same := settles_create.unique (Group.settles_iff_reaches.2 made)
  rcases @Halo.created_cases size sizes globals ids tags.halo with
    ⟨e, halos, together, created⟩ | ⟨errors, failed⟩
  · have halo : ∀ rank < size, first rank = ofHalo (halos rank) tags := by
      intro rank inside
      have here := same rank inside
      rw [created rank inside] at here
      exact (Except.ok.inj here).symm
    refine ⟨e, fun rank inside => ?_, fun rank inside => ?_⟩
    · show _ = Except.ok (first rank).halo
      rw [halo rank inside]
      exact together rank inside
    · rw [halo rank inside]
      rfl
  -- without ranks there is nothing to show
  · have nobody : ∀ rank, ¬rank < size := by
      intro rank inside
      have here := same rank inside
      rw [failed rank inside] at here
      cases here
    exact ⟨(first 0).halo.extents, fun rank inside => absurd inside (nobody rank),
      fun rank inside => absurd inside (nobody rank)⟩

/-- The ranks of a group have made a vector with ghosts and make any calls on it, in step only
where they need each other. All come to the end of their calls. And at every point of the calls
of a rank, each ghost is what its owner had when the owner made the same exchange, the last that
the rank has made, and reading by global id finds it. -/
theorem ghosts_are_snapshots {calls : Nat → List GhostedCall}
    (made : Group.Reaches
      (Group.ofRanks size fun rank =>
        (create (.member rank size) (sizes rank) (globals rank) (ids rank) tags).run)
      (Group.ofRanks size fun rank => .done (.ok (first rank))))
    (inStep : InStep size calls) :
    ∃ traces : Nat → List Moment,
      Group.Settles size
        (fun rank => (do
          let v ← create (.member rank size) (sizes rank) (globals rank) (ids rank) tags
          ExceptT.lift (v.runCalls (calls rank)) : Collective (List Moment)).run)
        (fun rank => .ok (traces rank)) ∧
      ∀ rank < size, (traces rank).map Moment.call = calls rank ∧
        ∀ past, past <+: traces rank →
          Snapshot size ids traces rank past (first rank) ((first rank).after past) := by
  obtain ⟨e, founded⟩ := exists_founded made
  obtain ⟨traces, shots, ran, facts⟩ := settles_runCalls founded
    ((calls 0).filterMap (GhostedCall.joint? ⟨0, size⟩))
    (fun rank inside => founded.kept inside)
    (fun rank inside => inStep.order rank inside 0 (Nat.zero_lt_of_lt inside)) inStep.allowed
  refine ⟨traces, Collective.settles_bind_ok (Group.settles_iff_reaches.2 made)
    (ran.map fun _ => Except.ok), fun rank inside => ⟨(facts rank inside).1, ?_⟩⟩
  intro past before
  obtain ⟨earlier, listed, follows⟩ := (facts rank inside).2.exists_earlier before
  have kept := follows.kept (founded.kept inside)
  constructor
  case fixed => exact ⟨kept.topology, kept.extents, kept.halo⟩
  case whole =>
    have ranged := Extents.range_eq (founded.numRanks_eq inside ▸ inside : rank < e.numRanks)
    rw [extents_eq_of_kept founded inside kept, Extents.localSize, ranged, buffer,
      List.length_append, length_ghosts_of_kept founded inside kept]
    exact ⟨congrArg Except.ok (length_values_of_kept founded inside kept).symm, rfl⟩
  case unrefreshed =>
    intro none_yet
    have nothing : earlier = [] := by
      have lists := follows.exchanges_eq
      rw [none_yet] at lists
      exact List.map_eq_nil_iff.1 lists.symm
    rw [follows.ghosts_eq, nothing]
    exact founded.ghosts_eq inside
  case refreshed =>
    intro before some' slot id here
    rw [extents_eq_of_kept founded inside kept]
    exact exists_snapshot founded (fun rank inside => (facts rank inside).2) listed follows some'
      inside here
  case ownedEntry => exact fun id => getGlobal_owned founded inside kept
  case ghostEntry => exact fun slot id => getGlobal_ghost founded inside kept
  case beyond => exact fun id => getGlobal_beyond_iff founded inside kept
  case unknown => exact fun id => getGlobal_unknown founded inside kept
  case exchange =>
    rintro moment c ⟨later, whole⟩ refreshing
    have follows := (facts rank inside).2
    rw [← whole, List.append_assoc] at follows
    rw [← topology_eq_of_kept founded inside kept]
    exact follows.refresh_eq refreshing

end made

/-- Two ranks of which each has the first entry of the other as a ghost. -/
def crossedIds : Nat → List UInt64
  | 0 => [2]
  | _ => [0]

/-- The first rank tries an exchange with nobody, and both change their entries before and after
the one they have together. -/
def crossedCalls : Nat → List GhostedCall
  | 0 => [.change (.fill .one), .refresh (.member 0 2), .refresh .single, .change (.scale .zero),
      .change (.queue (.one .add ⟨2, .one⟩)), .assemble (.member 0 2)]
  | _ => [.refresh (.member 1 2), .change (.set 5 .one), .assemble (.member 1 2)]

theorem ghosts_are_snapshots_crossed : ∃ (first : Nat → GhostedShard) (traces : Nat → List Moment),
    Group.Settles 2
      (fun rank => (do
        let v ← create (.member rank 2) (2 - rank.toUInt64) 3 (crossedIds rank) default
        ExceptT.lift (v.runCalls (crossedCalls rank)) : Collective (List Moment)).run)
      (fun rank => .ok (traces rank)) ∧
    (exchanges (traces 1)).length = 1 ∧
    ∃ there value, (exchanges (traces 0))[0]? = some there ∧
      there.shard.values[there.shard.ownedRange.offset 0]? = some value ∧
      ((first 1).after (traces 1)).getGlobal 0 = .ok value := by
  let sizes (rank : Nat) : UInt64 := 2 - rank.toUInt64
  let tags : VectorTags := default
  obtain ⟨halos, made⟩ : ∃ halos : Nat → Halo, ∀ rank < 2,
      Halo.created 2 sizes (fun _ => 3) crossedIds tags.halo rank = .ok (halos rank) := by
    rcases @Halo.created_cases 2 sizes (fun _ => 3) crossedIds tags.halo with
      ⟨_, halos, -, made⟩ | ⟨errors, failed⟩
    · exact ⟨halos, made⟩
    · have passed : (Halo.created 2 sizes (fun _ => 3) crossedIds tags.halo 0).isOk := by
        decide +kernel
      rw [failed 0 (by decide)] at passed
      cases passed
  have owns : (Halo.created 2 sizes (fun _ => 3) crossedIds tags.halo 1).map
      (fun halo => halo.extents.findOwner 0) = .ok (.ok 0) := by
    decide +kernel
  rw [made 1 (by decide)] at owns
  let first (rank : Nat) : GhostedShard := ofHalo (halos rank) tags
  have created : ∀ rank < 2, (Halo.created 2 sizes (fun _ => 3) crossedIds tags.halo rank >>=
      fun halo => .ok (ofHalo halo tags)) = .ok (first rank) := by
    intro rank inside
    rw [made rank inside]
    rfl
  have room : ∀ rank < 2, ∀ past ∈ (crossedCalls rank).inits,
      past.foldl GhostedCall.waitingAfter 0 * Update.recordSize ≤ lastIndex := by
    decide
  have own : ∀ rank < 2, ∀ call ∈ crossedCalls rank, ∀ c ∈ call.communicator?,
      c.topology = ⟨rank, 2⟩ → c = .member rank 2 := by
    decide
  have inStep : InStep 2 crossedCalls := ⟨fun rank inside => ⟨own rank inside,
    fun past before => room rank inside past ((List.mem_inits _ _).2 before)⟩, by decide⟩
  obtain ⟨traces, settled, facts⟩ := ghosts_are_snapshots
    (Group.settles_iff_reaches.1 (settles_create.congr (fun _ _ => rfl) created)) inStep
  obtain ⟨named, points⟩ := facts 1 (by decide)
  -- the first of the calls of the second rank was an exchange, which was made
  obtain ⟨⟨_, outcome, _⟩, rest, parted, ⟨⟩, others⟩ := List.map_eq_cons_iff.1 named
  obtain ⟨⟨_, _, _⟩, ending, rfl, ⟨⟩, final⟩ := List.map_eq_cons_iff.1 others
  obtain ⟨⟨_, _, _⟩, none', rfl, ⟨⟩, nothing⟩ := List.map_eq_cons_iff.1 final
  cases List.map_eq_nil_iff.1 nothing
  have begun := (points [] List.nil_prefix).exchange ⟨.refresh (.member 1 2), outcome, _⟩
    (.member 1 2) ⟨_, parted.symm⟩ rfl
  have once : (exchanges (traces 1)).length = 1 := by
    rcases begun with ⟨-, -, passed | ⟨apart, -⟩⟩
    · cases passed
      rw [parted]
      rfl
    · exact absurd rfl apart
  have last := points (traces 1) (List.prefix_refl _)
  obtain ⟨owner, -, there, value, owned, found, -, held, ghost⟩ := last.refreshed 0 once 0 0 rfl
  obtain ⟨_, again, read⟩ := last.ghostEntry 0 0 rfl
  cases ghost.symm.trans again
  have whose : (Except.ok 0 : Except VectorError Nat) = .ok owner := by
    rw [← owned, last.fixed.2.1]
    exact (Except.ok.inj owns).symm
  cases whose
  exact ⟨first, traces, settled, once, there, value, found, held, read⟩

end GhostedShard
end HaloVector
