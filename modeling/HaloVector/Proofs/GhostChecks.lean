import HaloVector.Proofs.Endings
import HaloVector.Proofs.GhostSafety
import HaloVector.Proofs.PlanDuality
import HaloVector.Proofs.Snapshots
import HaloVector.Proofs.Verdicts

/-!
# Two checks of ghost ids

Whoever makes a halo goes through its ghost ids twice. The first check looks at one id after the
other and stops at the first that is not good. The second one, which is part of making a plan,
sorts all ids by owner before it looks for repetitions. They accept the same ids, so a halo whose
ids have passed the first check is not refused for an id any more.

* `unfit?` is what can be wrong with an id by itself. `Sweep` has a constructor for each way in
  which the first check can end, and `sweep_ghostPlacesFrom` says that there are no others.
* `groupByOwner_of_unfit` and `groupByOwner_of_repeat` say what the second check refuses.
* `Plan.blamesNoId_build`, `Halo.blamed_ofExtents`: over no transport is an id refused after the
  first check.
* `ghost_checks_agree` is the whole of it.
-/

namespace HaloVector

/-! ## Ids that cannot be ghosts -/

/-- Why an id cannot be a ghost of a rank, whatever other ghosts it has. -/
def unfit? (e : Extents) (me : Nat) (id : UInt64) : Option VectorError :=
  if e.globalSize ≤ id then some (.invalidGlobalId id e.globalSize)
  else if e.isOwnedBy id me then some (.ghostIdLocallyOwned id me)
  else none

section ids

variable {e : Extents} {me size : Nat} {id : UInt64} {fault : VectorError} {ids : List UInt64}

theorem unfit?_eq_none_iff : unfit? e me id = none ↔ id < e.globalSize ∧ e.ownerOf id ≠ me := by
  unfold unfit?
  by_cases known : id < e.globalSize
  · have owned : e.isOwnedBy id me ↔ e.ownerOf id = me := by
      rw [Extents.isOwnedBy_iff, Extents.findOwner_eq known, Except.ok.injEq]
    simp [UInt64.not_le.2 known, known, owned]
  · simp [UInt64.not_lt.1 known, known]

theorem eq_of_unfit? (wrong : unfit? e me id = some fault) :
    fault = .invalidGlobalId id e.globalSize ∨ fault = .ghostIdLocallyOwned id me := by
  unfold unfit? at wrong
  split at wrong
  · exact .inl (Option.some.inj wrong).symm
  · split at wrong
    · exact .inr (Option.some.inj wrong).symm
    · cases wrong

theorem ghostOwner_of_fit (fit : unfit? e me id = none) :
    ghostOwner e me id = .ok (e.ownerOf id) :=
  have ⟨known, other⟩ := unfit?_eq_none_iff.1 fit
  ghostOwner_eq known other

theorem ghostOwner_of_unfit (wrong : unfit? e me id = some fault) :
    ghostOwner e me id = .error fault := by
  unfold unfit? at wrong
  split at wrong
  · rename_i beyond
    cases wrong
    rw [ghostOwner, Extents.findOwner, if_pos beyond]
    rfl
  · split at wrong
    · rename_i own
      cases wrong
      rw [ghostOwner, Extents.isOwnedBy_iff.1 own]
      exact if_pos rfl
    · cases wrong

theorem goodGhosts_of_fit (fit : ∀ id ∈ ids, unfit? e me id = none) (distinct : ids.Nodup) :
    GoodGhosts me e ids where
  distinct := distinct
  known id member := (unfit?_eq_none_iff.1 (fit id member)).1
  others id member := (unfit?_eq_none_iff.1 (fit id member)).2

/-! ## One id after the other -/

/-- What going through ids comes to, after others were `seen`. -/
inductive Sweep (e : Extents) (me : Nat) (seen ids : List UInt64) :
    Except VectorError (Std.ExtTreeMap UInt64 Nat) → Prop
  | fine {places : Std.ExtTreeMap UInt64 Nat} (fit : ∀ id ∈ ids, unfit? e me id = none)
    (distinct : firstRepeat? seen ids = none) : Sweep e me seen ids (.ok places)
  | unfit {fault : VectorError} (first : ids.findSome? (unfit? e me) = some fault) :
    Sweep e me seen ids (.error fault)
  | repeated {before after : List UInt64} {id : UInt64} (split : ids = before ++ id :: after)
    (fit : ∀ other ∈ before ++ [id], unfit? e me other = none)
    (distinct : firstRepeat? seen before = none) (earlier : id ∈ before ∨ id ∈ seen)
    (first : firstRepeat? seen ids = some id) :
    Sweep e me seen ids (.error (.duplicateGhostId id))

theorem Sweep.cons {seen rest : List UInt64}
    {outcome : Except VectorError (Std.ExtTreeMap UInt64 Nat)} (fit : unfit? e me id = none)
    (new : id ∉ seen) (later : Sweep e me (id :: seen) rest outcome) :
    Sweep e me seen (id :: rest) outcome := by
  have step (ids : List UInt64) : firstRepeat? seen (id :: ids) = firstRepeat? (id :: seen) ids :=
    if_neg (mt List.contains_iff_mem.1 new)
  cases later with
  | fine others distinct =>
    exact .fine (List.forall_mem_cons.2 ⟨fit, others⟩) ((step rest).trans distinct)
  | unfit first =>
    refine .unfit ?_
    rw [List.findSome?_cons, fit]
    exact first
  | @repeated before after again split others distinct earlier first =>
    have longer : id :: rest = (id :: before) ++ again :: after := congrArg (id :: ·) split
    refine .repeated longer (List.forall_mem_cons.2 ⟨fit, others⟩) ((step before).trans distinct)
      ?_ ((step rest).trans first)
    rwa [List.mem_cons, or_left_comm, ← or_assoc, ← List.mem_cons] at earlier

theorem sweep_ghostPlacesFrom {seen : List UInt64} {places : Std.ExtTreeMap UInt64 Nat}
    (tracked : ∀ id, places.contains id ↔ id ∈ seen) (place : Nat) (ids : List UInt64) :
    Sweep e me seen ids (ghostPlacesFrom e me places place ids) := by
  induction ids generalizing seen places place with
  | nil => exact .fine nofun rfl
  | cons id rest ih =>
    cases wrong : unfit? e me id with
    | some fault =>
      rw [ghostPlacesFrom, ghostOwner_of_unfit wrong]
      refine .unfit ?_
      rw [List.findSome?_cons, wrong]
    | none =>
      obtain ⟨known, other⟩ := unfit?_eq_none_iff.1 wrong
      rw [ghostPlacesFrom_cons known other]
      by_cases again : places.contains id
      · have earlier := (tracked id).1 again
        rw [if_pos again]
        have first : id :: rest = [] ++ id :: rest := rfl
        exact .repeated first (List.forall_mem_singleton.2 wrong) rfl (.inr earlier)
          (if_pos (List.contains_iff_mem.2 earlier))
      · rw [if_neg again]
        refine (ih (fun other => ?_) (place + 1)).cons wrong (mt (tracked id).2 again)
        rw [Std.ExtTreeMap.contains_insert, Bool.or_eq_true, tracked, List.mem_cons, beq_iff_eq,
          Std.LawfulEqOrd.compare_eq_iff_eq, eq_comm]

/-! ## All ids by owner -/

theorem groupByOwner_of_unfit (ranks : e.numRanks = size) (inside : me < size)
    (first : ids.findSome? (unfit? e me) = some fault) :
    groupByOwner ⟨me, size⟩ e ids = .error fault := by
  have stopped : (ids.mapM fun id => do pure (← ghostOwner e me id, id)) =
      (.error fault : Except VectorError (List (Nat × UInt64))) := by
    induction ids with
    | nil => cases first
    | cons id rest ih =>
      rw [List.findSome?_cons] at first
      rw [List.mapM_cons]
      cases wrong : unfit? e me id with
      | some other =>
        rw [wrong] at first
        cases first
        rw [ghostOwner_of_unfit wrong]
        rfl
      | none =>
        rw [wrong] at first
        rw [ghostOwner_of_fit wrong, ih first]
        rfl
  unfold groupByOwner
  rw [Extents.checkNumRanks, if_pos ranks, Extents.range_eq (ranks.symm ▸ inside), stopped]
  rfl

theorem groupByOwner_of_repeat (ranks : e.numRanks = size) (inside : me < size)
    (fit : ∀ id ∈ ids, unfit? e me id = none) (repeated : firstRepeat? [] ids = some id) :
    groupByOwner ⟨me, size⟩ e ids = .error (.duplicateGhostId id) := by
  have each : ∀ id ∈ ids, (do pure (← ghostOwner e me id, id)) =
      (.ok (e.ownerOf id, id) : Except VectorError (Nat × UInt64)) := by
    intro id member
    rw [ghostOwner_of_fit (fit id member)]
    rfl
  unfold groupByOwner
  rw [Extents.checkNumRanks, if_pos ranks, Extents.range_eq (ranks.symm ▸ inside),
    mapM_eq_ok each]
  simp only [repeated]
  rfl

end ids

/-! ## Both checks -/

/-- Ids sorted by owner: each owner of some of them has those that it owns, in order, and together
these are all. -/
structure SortedByOwner (e : Extents) (ids : List UInt64) (byOwner : RankMap (List UInt64)) :
    Prop where
  lists : ∀ owner list, byOwner[owner]? = some list ↔ list ≠ [] ∧ list = e.idsOf ids owner
  all : (byOwner.toList.flatMap Prod.snd).Perm ids

/-- What the second check says of ids that the first has refused. It has the same to say, except
that it looks for repetitions last: after one it may still find an id that is unfit by itself. -/
structure RefusedLikewise (t : Topology) (e : Extents) (ids : List UInt64) (fault : VectorError) :
    Prop where
  same : (∀ id, fault ≠ .duplicateGhostId id) → groupByOwner t e ids = .error fault
  repeated : ∀ id, fault = .duplicateGhostId id → ∃ before after, ids = before ++ id :: after ∧
    before.Nodup ∧ id ∈ before ∧ (∀ other ∈ before ++ [id], unfit? e t.rank other = none) ∧
    groupByOwner t e ids = .error ((after.findSome? (unfit? e t.rank)).getD fault)

section checks

variable {t : Topology} {e : Extents} {ids : List UInt64}

theorem GoodGhosts.sortedByOwner {rank : Nat} (good : GoodGhosts rank e ids) :
    SortedByOwner e ids (wanted e ids) := by
  have found {owner : Nat} {list : List UInt64} :
      (wanted e ids)[owner]? = some list ↔ list ≠ [] ∧ list = wantedFrom e ids owner :=
    getElem?_shares good.known
  constructor
  · intro owner list
    rw [found, wantedFrom_eq_idsOf]
  · have inside (owner : Nat) (list : List UInt64) (here : (wanted e ids)[owner]? = some list) :
        owner < e.numRanks := by
      obtain ⟨populated, rfl⟩ := found.1 here
      obtain ⟨id, member⟩ := List.exists_mem_of_ne_nil _ populated
      obtain ⟨own, ranged, -⟩ := Extents.findOwner_eq_ok_iff.1 (mem_wantedFrom.1 member).2
      exact Extents.lt_numRanks_of_range ranged
    rw [RankMap.flatMap_toList inside]
    exact (List.perm_ext_iff_of_nodup good.nodup_concat good.distinct).2 fun id =>
      good.mem_concat rfl

theorem sweep_ghostPlaces (ids : List UInt64) (ranks : e.numRanks = t.size) :
    Sweep e t.rank [] ids (ghostPlaces t e ids) := by
  have counted : e.checkNumRanks t.size = .ok () := if_pos ranks
  have none_yet (id : UInt64) : (∅ : Std.ExtTreeMap UInt64 Nat).contains id ↔ id ∈ [] := by simp
  unfold ghostPlaces
  rw [counted]
  exact sweep_ghostPlacesFrom none_yet 0 ids

theorem ghostPlaces_of_miscounted (ranks : e.numRanks ≠ t.size) :
    ghostPlaces t e ids =
      .error (.lengthMismatch "extents rank count" t.size e.numRanks) := by
  unfold ghostPlaces
  rw [Extents.checkNumRanks, if_neg ranks]
  rfl

/-- What has passed the first check is sorted by the second. -/
theorem groupByOwner_of_ghostPlaces (member : t.IsMember)
    {places : Std.ExtTreeMap UInt64 Nat} (passed : ghostPlaces t e ids = .ok places) :
    groupByOwner t e ids = .ok (e.rangeAt t.rank, wanted e ids) := by
  by_cases ranks : e.numRanks = t.size
  · have sweep := sweep_ghostPlaces ids ranks
    rw [passed] at sweep
    cases sweep with
    | fine fit distinct =>
      exact groupByOwner_eq ranks member
        (goodGhosts_of_fit fit (nodup_of_firstRepeat? distinct).1)
  · cases (ghostPlaces_of_miscounted ranks).symm.trans passed

theorem exists_ghostPlaces {sorted : IdRange × RankMap (List UInt64)}
    (passed : groupByOwner t e ids = .ok sorted) : ∃ places, ghostPlaces t e ids = .ok places := by
  obtain ⟨ranks, good, -⟩ := @groupByOwner_eq_ok t.rank t.size _ _ _ passed
  obtain ⟨places, placed⟩ := exists_ghostPlacesFrom good
    (fun _ _ => Std.ExtTreeMap.contains_empty) 0
  refine ⟨places, ?_⟩
  have counted : e.checkNumRanks t.size = .ok () := if_pos ranks
  unfold ghostPlaces
  rw [counted]
  exact placed

theorem refusedLikewise (member : t.IsMember) {fault : VectorError}
    (refused : ghostPlaces t e ids = .error fault) : RefusedLikewise t e ids fault := by
  by_cases ranks : e.numRanks = t.size
  · have sweep := sweep_ghostPlaces ids ranks
    rw [refused] at sweep
    cases sweep with
    | unfit first =>
      refine ⟨fun _ => groupByOwner_of_unfit ranks member first, ?_⟩
      rintro id rfl
      obtain ⟨_, _, wrong⟩ := List.exists_of_findSome?_eq_some first
      rcases eq_of_unfit? wrong with same | same <;> cases same
    | @repeated before after id split fit distinct earlier first =>
      refine ⟨fun other => absurd rfl (other id), ?_⟩
      rintro _ ⟨⟩
      refine ⟨before, after, split, (nodup_of_firstRepeat? distinct).1,
        earlier.resolve_right List.not_mem_nil, fit, ?_⟩
      cases later : after.findSome? (unfit? e t.rank) with
      | some other =>
        refine groupByOwner_of_unfit ranks member ?_
        rw [split, List.append_cons, List.findSome?_append, List.findSome?_eq_none_iff.2 fit]
        exact later
      | none =>
        refine groupByOwner_of_repeat ranks member ?_ first
        rw [split, List.append_cons, List.forall_mem_append]
        exact ⟨fit, List.findSome?_eq_none_iff.1 later⟩
  · cases (ghostPlaces_of_miscounted ranks).symm.trans refused
    refine ⟨fun _ => ?_, nofun⟩
    unfold groupByOwner
    rw [Extents.checkNumRanks, if_neg ranks]
    rfl

/-- An id that has no place yet is no matter of the first check. -/
theorem ghostPlaces_ne_unknown (id : UInt64) :
    ghostPlaces t e ids ≠ .error (.unknownGhostId id) := by
  intro refused
  by_cases ranks : e.numRanks = t.size
  · have sweep := sweep_ghostPlaces ids ranks
    rw [refused] at sweep
    cases sweep with
    | unfit first =>
      obtain ⟨_, _, wrong⟩ := List.exists_of_findSome?_eq_some first
      rcases eq_of_unfit? wrong with same | same <;> cases same
  · cases (ghostPlaces_of_miscounted ranks).symm.trans refused

end checks

/-! ## After the first check -/

section after

variable (c : Communicator) {e : Extents} {ids : List UInt64}

/-- Only a rank that refuses its own ids comes to know which of them was refused. -/
theorem blamed_agreeOnOutcome {α : Type} {outcome : Except VectorError α} {operation : String}
    {fault : VectorError} (blames : fault.BlamesId)
    (ended : (agreeOnOutcome c outcome operation).run.CanEnd (.error fault)) :
    outcome = .error fault := by
  cases outcome with
  | ok value =>
    have blameless := blamesNoId_agreeOnOutcome c (blamesNoId_ok value) operation
    exact absurd blames (blameless _ ended fault rfl)
  | error e =>
    rcases Collective.canEnd_bind ended with ⟨_, failed, ⟨⟩⟩ | ⟨statuses, -, ended⟩
    · exact absurd blames (blamesNoId_gather c _ _ failed fault rfl)
    · exact (Collective.canEnd_ofExcept_iff.1 ended).symm

theorem blamesNoId_localizeRequests (me : Nat) (own : IdRange) (requests : RankMap (List UInt64)) :
    BlamesNoId (localizeRequests me own requests) := by
  refine (blamesNoId_mapM (fun (requester, ids) => ?_) _).bind fun _ => blamesNoId_ok _
  refine blamesNoId_mapM (fun id => ?_) ids
  split <;> exact nofun

theorem Plan.blamesNoId_build {sorted : IdRange × RankMap (List UInt64)}
    (passed : groupByOwner c.topology e ids = .ok sorted) (tags : ExchangeTags) :
    (build c e ids tags).BlamesNoId := by
  unfold build
  refine (blamesNoId_agreeOnOutcome c (passed ▸ blamesNoId_ok sorted) _).bind fun _ _ => ?_
  refine (blamesNoId_exchangeByRank c _ _).bind fun _ _ => ?_
  refine (blamesNoId_agreeOnOutcome c (blamesNoId_localizeRequests _ _ _) _).bind fun _ _ => ?_
  refine (Collective.blamesNoId_lift _).bind fun _ _ => ?_
  exact (Collective.blamesNoId_log _ _).bind fun _ _ => Collective.blamesNoId_pure _

/-- A plan that was built has a position for every ghost. -/
theorem Plan.exists_position {tags : ExchangeTags} {plan : Plan}
    (built : (build c e ids tags).run.CanEnd (.ok plan)) {id : UInt64} (member : id ∈ ids) :
    ∃ position, plan.position? id = some position := by
  obtain ⟨_, ranks, good, -, asked, localIds, rfl, -⟩ :=
    (Plan.ensures_build c e ids tags).of_canEnd built
  obtain ⟨position, placed, -⟩ :=
    exists_positionsOf good.nodup_concat ((good.mem_concat ranks).2 member)
  exact ⟨position, placed⟩

/-- If a halo is not made because of an id, then it was the first check that refused the id. -/
theorem Halo.blamed_ofExtents {tags : HaloTags} {fault : VectorError} (blames : fault.BlamesId)
    (ended : (ofExtents c e ids tags).run.CanEnd (.error fault)) :
    ghostPlaces c.topology e ids = .error fault := by
  unfold ofExtents at ended
  rcases Collective.canEnd_bind ended with ⟨_, failed, ⟨⟩⟩ | ⟨places, placed, ended⟩
  · exact blamed_agreeOnOutcome c blames failed
  -- nothing that comes after the first check blames an id
  obtain ⟨_, passed⟩ := (ensures_agreeOnOutcome c (ghostPlaces c.topology e ids) _).of_canEnd placed
  have grouped := groupByOwner_of_ghostPlaces c.isMember_topology passed
  refine absurd blames (Collective.BlamesNoId.bind (Plan.blamesNoId_build c grouped tags.plan)
    (fun plan built => ?_) _ ended fault rfl)
  have located : slotsOf plan ids = .ok (ids.map (slotIn plan)) :=
    slotsOf_eq fun id member => Plan.exists_position c built member
  have blameless : BlamesNoId (slotsOf plan ids) := located ▸ blamesNoId_ok _
  exact (Collective.blamesNoId_ofExcept blameless).bind fun _ _ => Collective.blamesNoId_pure _

end after

/-- The two checks accept the same ghost ids. An id then has the place where it is in the list, and
the ids are sorted by owner. Both refuse others for the same reason, except that the second finds
what is unfit before it finds what is repeated. So nothing that comes after the first check refuses
an id: not over any transport, and neither the second check nor the search for positions. -/
theorem ghost_checks_agree :
    (∀ (t : Topology) (e : Extents) (ids : List UInt64), t.IsMember →
      ((∃ places, ghostPlaces t e ids = .ok places) ↔
        ∃ sorted, groupByOwner t e ids = .ok sorted) ∧
      (∀ places, ghostPlaces t e ids = .ok places →
        ∀ (id : UInt64) (index : Nat), places[id]? = some index ↔ ids[index]? = some id) ∧
      (∀ own byOwner, groupByOwner t e ids = .ok (own, byOwner) →
        e.range t.rank = .ok own ∧ SortedByOwner e ids byOwner) ∧
      ∀ fault, ghostPlaces t e ids = .error fault → RefusedLikewise t e ids fault) ∧
    ∀ (c : Communicator) (e : Extents) (ids : List UInt64),
      (∀ tags plan, (Plan.build c e ids tags).run.CanEnd (.ok plan) →
        ∀ id ∈ ids, ∃ position, plan.position? id = some position) ∧
      ∀ tags fault, (Halo.ofExtents c e ids tags).run.CanEnd (.error fault) → fault.BlamesId →
        ghostPlaces c.topology e ids = .error fault ∧ ∀ id, fault ≠ .unknownGhostId id := by
  refine ⟨fun t e ids member => ⟨⟨?_, ?_⟩, fun places passed id index => ?_,
    fun own byOwner passed => ?_, fun fault => refusedLikewise member⟩,
    fun c e ids => ⟨fun tags plan built id => Plan.exists_position c built,
      fun tags fault ended blames => ?_⟩⟩
  · rintro ⟨places, passed⟩
    exact ⟨_, groupByOwner_of_ghostPlaces member passed⟩
  · rintro ⟨sorted, passed⟩
    exact exists_ghostPlaces passed
  · obtain ⟨_, -, found⟩ := bind_eq_ok_iff.1 passed
    rw [ghostPlacesFrom_eq_ok found]
    simp
  · obtain ⟨ranks, good, same⟩ := @groupByOwner_eq_ok t.rank t.size _ _ _ passed
    cases same
    exact ⟨Extents.range_eq (ranks.symm ▸ member), good.sortedByOwner⟩
  · have refused := Halo.blamed_ofExtents c blames ended
    refine ⟨refused, ?_⟩
    rintro id rfl
    exact ghostPlaces_ne_unknown id refused

/-- Two ids for the first of two ranks and four for the second. -/
def twoAndFour : Extents := ⟨[2, 6], by decide, by decide⟩

/-- The first rank can have the first and the last as ghosts. In between, one comes twice, one is
unknown and one is its own. -/
def mixedIds : List UInt64 := [2, 2, 9, 0, 3]

theorem ghost_checks_agree_mixed :
    (∃ own byOwner, groupByOwner ⟨0, 2⟩ twoAndFour [3, 2] = .ok (own, byOwner) ∧
      byOwner[1]? = some [3, 2] ∧ byOwner[0]? = none) ∧
    ghostPlaces ⟨0, 2⟩ twoAndFour mixedIds = .error (.duplicateGhostId 2) ∧
    groupByOwner ⟨0, 2⟩ twoAndFour mixedIds = .error (.invalidGlobalId 9 6) ∧
    (Halo.ofExtents .single ⟨[4], by decide, by decide⟩ [1] default).run.CanEnd
      (.error (.ghostIdLocallyOwned 1 0)) ∧
    ghostPlaces .serial ⟨[4], by decide, by decide⟩ [1] = .error (.ghostIdLocallyOwned 1 0) := by
  obtain ⟨checks, making⟩ := ghost_checks_agree
  have refused : ghostPlaces ⟨0, 2⟩ twoAndFour mixedIds = .error (.duplicateGhostId 2) := rfl
  have ended : (Halo.ofExtents .single ⟨[4], by decide, by decide⟩ [1] default).run.CanEnd
      (.error (.ghostIdLocallyOwned 1 0)) := ⟨Script, Script.transport, .ofReplies [], rfl⟩
  refine ⟨?_, refused, ?_, ended, ((making .single _ _).2 _ _ ended (.own 1 0)).1⟩
  · obtain ⟨passes, -, sorted, -⟩ := checks ⟨0, 2⟩ twoAndFour [3, 2] (by decide)
    obtain ⟨⟨own, byOwner⟩, passed⟩ := passes.1 ⟨_, rfl⟩
    have lists := (sorted own byOwner passed).2.lists
    refine ⟨own, byOwner, passed, (lists 1 [3, 2]).2 ⟨by decide, rfl⟩, ?_⟩
    refine Option.eq_none_iff_forall_ne_some.2 fun list found => ?_
    obtain ⟨populated, none_here⟩ := (lists 0 list).1 found
    exact populated none_here
  · obtain ⟨-, -, -, likewise⟩ := checks ⟨0, 2⟩ twoAndFour mixedIds (by decide)
    obtain ⟨before, after, split, distinct, earlier, -, same⟩ :=
      (likewise _ refused).repeated 2 rfl
    rcases before with _ | ⟨one, _ | ⟨other, before⟩⟩
    · cases earlier
    · cases split
      exact same
    · obtain ⟨rfl, rest⟩ := List.cons.inj split
      obtain ⟨rfl, -⟩ := List.cons.inj rest
      exact absurd List.mem_cons_self (List.nodup_cons.1 distinct).1

end HaloVector
