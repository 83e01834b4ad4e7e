import HaloVector.Proofs.Checks
import HaloVector.Proofs.Consensus
import HaloVector.Proofs.Routing
import HaloVector.Proofs.Warnings

/-!
# Assembling

What an assembly comes to on a whole group, computed from the queues of all ranks
(`Group.assembledTo`), and that every schedule comes to it
(`Group.settles_assembleDrained`). Buffers that are too short are found on the way
(`Group.settles_assembleDrained_checked`).

Until all updates have reached their owners the ranks need each other (`deliver`), and from then
on no longer (`conclude`). Only then warnings are logged (`Group.warns_assembleDrained`).
-/

namespace HaloVector

/-- What an assembly leaves behind for the outcome of bringing the updates to their owners. -/
def Assembled.after (values : List Scalar) : Except VectorError (List Scalar) → Attempt Assembled
  | .ok applied => ⟨⟨applied, .empty⟩, .ok ()⟩
  | .error e => ⟨⟨values, .empty⟩, .error e⟩

theorem assemble_eq (c : Communicator) (extents : Extents) (values : List Scalar)
    (queue : OpQueue) (tags : AssemblyTags) :
    assemble c extents values queue tags =
      (assembleDrained c extents values queue.drained tags).run.bind fun outcome =>
        .done (Assembled.after values outcome) := by
  unfold assemble
  show Program.bind _ _ = _
  congr 1
  funext outcome
  cases outcome <;> rfl

/-! ## Delivering and concluding -/

/-- What a rank has in hand when all updates have reached their owners. -/
structure Delivery where
  mode : QueueMode
  own : IdRange
  /-- The updates that the rank itself had queued. -/
  byOwner : RankMap (List Update)
  incoming : List (Nat × Update)

namespace Delivery

/-- All updates that are due at a rank, with their source, in the order in which they are
applied. -/
def all (d : Delivery) (me : Nat) : List (Nat × Update) :=
  (d.byOwner.listOf me).map (me, ·) ++ d.incoming

/-- What a rank warns of. -/
def warnings (me : Nat) : Option Delivery → List String
  | none => []
  | some d => (conflicts d.mode (d.all me)).map Conflict.text

end Delivery

/-- An assembly up to the point at which the ranks begin to apply updates. If nothing is queued
anywhere it never comes to that. -/
def deliver (c : Communicator) (extents : Extents) (values : List Scalar) (drained : Drained)
    (tags : AssemblyTags) : Collective (Option Delivery) := do
  let me := c.rank
  let own ← Collective.ofExcept (extents.range me)
  let mode ← agreeOnMode c drained.mode
  if mode = .empty then return none
  let byOwner ← Collective.ofExcept (updatesByOwner extents drained.updates)
  let received ← exchangeByRank c ((byOwner.erase me).map fun _ => Update.encodeAll) tags.records
  let checked := do
    checkRoom values.length own.length
    readReceived me own received
  let incoming ← agreeOnOutcome c checked "assembly"
  pure (some ⟨mode, own, byOwner, incoming⟩)

/-- The rest of an assembly, for which a rank needs no other. -/
def conclude (me : Nat) (values : List Scalar) : Option Delivery → Collective (List Scalar)
  | none => pure values
  | some d => do
    let applied ← Collective.inBounds (applyToOwned? d.mode d.own values ((d.all me).map Prod.snd))
    (conflicts d.mode (d.all me)).forM fun conflict => Collective.log .warn conflict.text
    let remote := d.byOwner.erase me
    let sent := totalCount (remote.toList.map (·.2.length))
    Collective.log .debug <|
      s!"rank {me}: assembled {d.mode.text}: {(d.byOwner.listOf me).length} local, " ++
      s!"{sent} sent to {remote.size} ranks, {d.incoming.length} received"
    pure applied

/-- An assembly is these two parts. -/
theorem assembleDrained_eq (c : Communicator) (extents : Extents) (values : List Scalar)
    (drained : Drained) (tags : AssemblyTags) :
    assembleDrained c extents values drained tags =
      deliver c extents values drained tags >>= conclude c.rank values := by
  unfold assembleDrained deliver
  simp only [bind_assoc]
  refine bind_congr fun own => bind_congr fun mode => ?_
  split
  · rfl
  · simp only [bind_assoc]
    rfl

namespace Group

section assembleDrained

variable (size : Nat) (extents : Nat → Extents) (values : Nat → List Scalar)
  (drained : Nat → Drained)

/-- What the code keeps true of the shards that enter an assembly. -/
structure Ready : Prop where
  ranks : ∀ rank < size, (extents rank).numRanks = size
  room : ∀ rank < size, ((extents rank).rangeAt rank).length ≤ (values rank).length
  known : ∀ rank < size, ∀ update ∈ (drained rank).updates,
    update.id < (extents rank).globalSize
  /-- The records of a rank fit into one buffer. -/
  small : ∀ rank < size, (drained rank).updates.length * Update.recordSize ≤ lastIndex

/-- What lets every update find its owner. Nothing is said of the buffers. -/
structure Addressed : Prop where
  ranks : ∀ rank < size, (extents rank).numRanks = size
  known : ∀ rank < size, ∀ update ∈ (drained rank).updates,
    update.id < (extents rank).globalSize
  small : ∀ rank < size, (drained rank).updates.length * Update.recordSize ≤ lastIndex

/-- The modes of all queues, by rank. -/
def modesOf : List QueueMode := (List.range size).map fun rank => (drained rank).mode

/-- The updates that reach a rank from the others. -/
def arriving (rank : Nat) : List (Nat × Update) :=
  arrivals size extents (fun source => (drained source).updates) rank

/-- What a rank makes of all that reaches it. -/
def inspected (rank : Nat) : Except VectorError (List (Nat × Update)) :=
  inspect rank ((extents rank).rangeAt rank) (arriving size extents drained rank)

/-- What a rank makes of its own buffer, and then of all that reaches it. -/
def checked (rank : Nat) : Except VectorError (List (Nat × Update)) := do
  checkRoom (values rank).length ((extents rank).rangeAt rank).length
  inspected size extents drained rank

/-- The updates of a rank's entries in the order in which they are applied. -/
def due (rank : Nat) : List Update :=
  share (extents rank) Update.id (drained rank).updates rank ++
    (arriving size extents drained rank).map Prod.snd

/-- The entries of a rank after all updates that are due there. -/
def applied (mode : QueueMode) (rank : Nat) : List Scalar :=
  (applyToOwned? mode ((extents rank).rangeAt rank) (values rank)
    (due size extents drained rank)).getD (values rank)

/-- What a rank comes to in one mode. -/
def assembledIn (mode : QueueMode) (rank : Nat) : Except VectorError (List Scalar) :=
  if mode = .empty then .ok (values rank)
  else (agreed size (inspected size extents drained) "assembly" rank).map fun _ =>
    applied size extents values drained mode rank

/-- What a rank comes to. -/
def assembledTo (rank : Nat) : Except VectorError (List Scalar) :=
  groupMode rank (drained rank).mode ((modesOf size drained).map QueueMode.code) >>= fun mode =>
    assembledIn size extents values drained mode rank

/-- What a rank comes to if it has looked at its own buffer before. -/
def checkedTo (rank : Nat) : Except VectorError (List Scalar) :=
  groupMode rank (drained rank).mode ((modesOf size drained).map QueueMode.code) >>= fun mode =>
    if mode = .empty then .ok (values rank)
    else (agreed size (checked size extents values drained) "assembly" rank).map fun _ =>
      applied size extents values drained mode rank

/-- What is delivered to a rank if it has looked at its own buffer before. -/
def deliveredTo (rank : Nat) : Except VectorError (Option Delivery) :=
  groupMode rank (drained rank).mode ((modesOf size drained).map QueueMode.code) >>= fun mode =>
    if mode = .empty then .ok none
    else (agreed size (checked size extents values drained) "assembly" rank).map fun incoming =>
      some ⟨mode, (extents rank).rangeAt rank,
        shares (extents rank) Update.id (drained rank).updates, incoming⟩

/-- What a rank makes of what is delivered to it. -/
def concludedTo (rank : Nat) : Option Delivery → Except VectorError (List Scalar)
  | none => .ok (values rank)
  | some d => .ok (applied size extents values drained d.mode rank)

variable {size extents values drained}

theorem checkedTo_eq_bind (rank : Nat) : checkedTo size extents values drained rank =
    deliveredTo size extents values drained rank >>=
      concludedTo size extents values drained rank := by
  unfold checkedTo deliveredTo
  cases groupMode rank (drained rank).mode ((modesOf size drained).map QueueMode.code) with
  | error e => rfl
  | ok mode =>
    show (if _ then _ else _) = (if _ then _ else _) >>= _
    split
    · rfl
    · cases agreed size (checked size extents values drained) "assembly" rank <;> rfl

theorem Ready.addressed (ready : Ready size extents values drained) :
    Addressed size extents drained := ⟨ready.ranks, ready.known, ready.small⟩

theorem checkRoom_eq_ok_iff {length localSize : Nat} :
    checkRoom length localSize = .ok () ↔ localSize ≤ length := by
  rw [checkRoom, ← Nat.not_lt]
  split <;> simp_all

/-- An assembly neither adds nor removes entries. -/
theorem length_of_assembledTo {rank : Nat} {result : List Scalar}
    (came : assembledTo size extents values drained rank = .ok result) :
    result.length = (values rank).length := by
  obtain ⟨mode, -, came⟩ := bind_eq_ok_iff.1 came
  unfold assembledIn at came
  split at came
  · cases came
    rfl
  · obtain ⟨_, -, came⟩ := bind_eq_ok_iff.1 came
    cases came
    unfold applied
    cases ran : applyToOwned? mode ((extents rank).rangeAt rank) (values rank)
        (due size extents drained rank) with
    | none => rfl
    | some entries => exact length_applyToOwned? ran

/-- Every update that is due at a rank is for one of its entries. -/
theorem held_of_inspected (addressed : Addressed size extents drained) {rank : Nat}
    (inside : rank < size) {incoming : List (Nat × Update)}
    (passed : inspected size extents drained rank = .ok incoming) :
    ∀ update ∈ due size extents drained rank,
      ((extents rank).rangeAt rank).contains update.id := by
  obtain ⟨-, foreignFree⟩ := inspect_eq_ok passed
  intro update member
  rcases List.mem_append.1 member with mine | others
  · have owned := (List.mem_filter.1 mine).2
    rwa [Extents.isOwnedBy_eq_contains (addressed.ranks rank inside ▸ inside)] at owned
  · obtain ⟨⟨source, _⟩, arrived, rfl⟩ := List.mem_map.1 others
    exact foreignFree _ arrived

/-- All updates that are due at a rank find their entries. -/
theorem applyToOwned?_due (addressed : Addressed size extents drained) (mode : QueueMode)
    {rank : Nat} (inside : rank < size)
    (room : ((extents rank).rangeAt rank).length ≤ (values rank).length)
    {incoming : List (Nat × Update)}
    (passed : inspected size extents drained rank = .ok incoming) :
    applyToOwned? mode ((extents rank).rangeAt rank) (values rank)
      (due size extents drained rank) = some (applied size extents values drained mode rank) := by
  obtain ⟨result, ran, -⟩ := exists_appliedToOwned mode room
    (held_of_inspected addressed inside passed)
  rw [applied, ran, Option.getD_some]

theorem settles_deliver (addressed : Addressed size extents drained) (tags : AssemblyTags) :
    Settles size
      (fun rank => (deliver (.member rank size) (extents rank) (values rank)
        (drained rank) tags).run)
      (deliveredTo size extents values drained) := by
  have ranged : ∀ rank < size,
      (extents rank).range rank = .ok ((extents rank).rangeAt rank) :=
    fun rank inside => Extents.range_eq (addressed.ranks rank inside ▸ inside)
  have numbered (rank : Nat) : (Communicator.member rank size).rank = rank := rfl
  refine .of_eq (fun rank inside => by
    unfold deliver
    simp only [numbered, ranged rank inside, Collective.ofExcept_ok_bind]
    exact rfl) ?_
  have polled := @settles_agreeOnMode size fun rank => (drained rank).mode
  refine Collective.settles_bind polled ?_
  unfold deliveredTo
  by_cases agree : QueueMode.Agree (modesOf size drained)
  case neg =>
    -- every rank sees the disagreement, and stops before anything is sent
    refine .of_eq (fun rank _ => ?_) (.done _)
    rw [groupMode_eq_error agree]
    show Collective.proceed _ (groupMode rank _ ((modesOf size drained).map _)) = _
    rw [groupMode_eq_error agree]
    rfl
  generalize known : QueueMode.greatest (modesOf size drained) = mode
  refine .congr ?_ (fun rank inside => by
    show _ = Collective.proceed _ (groupMode rank _ ((modesOf size drained).map _))
    rw [groupMode_eq_ok agree, known]) (fun rank inside => by
    rw [groupMode_eq_ok agree, known])
  by_cases nothing : mode = .empty
  -- no rank has queued anything, so all stop here
  · refine .congr (.done fun _ => .ok none) (fun rank _ => ?_) fun rank _ => ?_
    · show _ = ExceptT.run (if mode = .empty then _ else _)
      rw [if_pos nothing]
      rfl
    · exact (if_pos nothing).symm
  refine .congr ?_ (fun rank inside => by
    show _ = ExceptT.run (if mode = .empty then _ else _)
    rw [if_neg nothing, updatesByOwner_eq (addressed.known rank inside),
      Collective.ofExcept_ok_bind]) fun rank inside => (if_neg nothing).symm
  have delivered := settles_exchangeByRank
    (parcels extents fun rank => (drained rank).updates) tags.records
    (fun rank inside target member => addressed.ranks rank inside ▸
      lt_of_mem_parcels (addressed.known rank inside) member)
    (fun rank inside target _ => Nat.le_trans
      (length_parcels_le (addressed.known rank inside) target) (addressed.small rank inside))
  refine Collective.settles_bind_ok delivered ?_
  -- what has arrived is the same list of updates that `inspected` looks at
  refine .of_eq (fun rank inside => by
    simp only [readReceived_eq rank addressed.known]
    exact rfl) ?_
  refine Collective.settles_bind settles_agreeOnOutcome (.of_eq (fun rank _ => ?_) (.done _))
  show Collective.proceed _ (agreed size (checked size extents values drained) "assembly" rank) = _
  cases agreed size (checked size extents values drained) "assembly" rank <;> rfl

/-- What is delivered to a rank is what is due there, and has passed the checks. -/
theorem of_deliveredTo (addressed : Addressed size extents drained) {rank : Nat}
    (inside : rank < size) {d : Delivery}
    (came : deliveredTo size extents values drained rank = .ok (some d)) :
    d.own = (extents rank).rangeAt rank ∧
      d.all rank = (share (extents rank) Update.id (drained rank).updates rank).map (rank, ·) ++
        arriving size extents drained rank ∧
      checked size extents values drained rank = .ok (arriving size extents drained rank) := by
  obtain ⟨mode, -, came⟩ := bind_eq_ok_iff.1 came
  split at came
  · cases came
  obtain ⟨incoming, found, same⟩ := map_eq_ok_iff.1 came
  obtain rfl := Option.some.inj same
  have passed := (eq_ok_of_agreed found).1
  obtain ⟨_, -, inspected⟩ := bind_eq_ok_iff.1 passed
  obtain ⟨rfl, -⟩ := inspect_eq_ok inspected
  refine ⟨rfl, ?_, passed⟩
  rw [Delivery.all, listOf_shares (addressed.known rank inside)]

theorem tells_conclude (addressed : Addressed size extents drained) {rank : Nat}
    (inside : rank < size) {found : Option Delivery}
    (came : deliveredTo size extents values drained rank = .ok found) :
    (conclude rank (values rank) found).run.Tells
      (concludedTo size extents values drained rank found)
      (Delivery.warnings rank found) := by
  cases found with
  | none => exact Program.tells_done _
  | some d =>
    obtain ⟨own, all, passed⟩ := of_deliveredTo addressed inside came
    obtain ⟨_, roomy, passed⟩ := bind_eq_ok_iff.1 passed
    have room := checkRoom_eq_ok_iff.1 roomy
    have ran : (Collective.inBounds (applyToOwned? d.mode d.own (values rank)
        ((d.all rank).map Prod.snd))).run.Tells
        (.ok (applied size extents values drained d.mode rank)) [] := by
      have inOrder : (d.all rank).map Prod.snd = due size extents drained rank := by
        rw [all, List.map_append, List.map_map, due]
        exact congrArg (· ++ _) (List.map_id _)
      rw [inOrder, own, applyToOwned?_due addressed d.mode inside room passed]
      exact Program.tells_done _
    have told : (conclude rank (values rank) (some d)).run.Tells
        (.ok (applied size extents values drained d.mode rank))
        ([] ++ ((conflicts d.mode (d.all rank)).map Conflict.text ++ [])) := by
      refine Collective.tells_bind ran (Collective.tells_bind (Collective.tells_forM_warn _ _) ?_)
      exact Collective.tells_bind (Collective.tells_log (by decide) _) (Program.tells_done _)
    rwa [List.nil_append, List.append_nil] at told

/-- Whatever the buffers of the ranks. -/
theorem settles_assembleDrained_checked (addressed : Addressed size extents drained)
    (tags : AssemblyTags) :
    Settles size
      (fun rank => (assembleDrained (.member rank size) (extents rank) (values rank)
        (drained rank) tags).run)
      (checkedTo size extents values drained) := by
  refine .congr (Collective.settles_bind_computes (settles_deliver addressed tags)
    fun rank inside found came => (tells_conclude addressed inside came).computes)
    (fun rank _ => ?_) fun rank _ => (checkedTo_eq_bind rank).symm
  rw [assembleDrained_eq]
  rfl

theorem neverWarns_deliver (c : Communicator) (extents : Extents) (values : List Scalar)
    (drained : Drained) (tags : AssemblyTags) :
    (deliver c extents values drained tags).run.NeverWarns := by
  refine Collective.neverWarns_bind trivial fun own => ?_
  refine Collective.neverWarns_bind (neverWarns_agreeOnMode c _) fun mode => ?_
  dsimp only
  split
  · trivial
  refine Collective.neverWarns_bind trivial fun byOwner => ?_
  refine Collective.neverWarns_bind (neverWarns_exchangeByRank c _ _) fun received => ?_
  exact Collective.neverWarns_bind (neverWarns_agreeOnOutcome c _ _) fun _ => trivial

/-- Ranks warn of the conflicts among the updates that are delivered to them, and of nothing
else. -/
theorem warns_assembleDrained (addressed : Addressed size extents drained)
    (tags : AssemblyTags) :
    Warns size
      (fun rank => (assembleDrained (.member rank size) (extents rank) (values rank)
        (drained rank) tags).run)
      (checkedTo size extents values drained) fun rank =>
        Delivery.warnings rank (deliveredTo size extents values drained rank).toOption.join := by
  have settled : Settles size _ (deliveredTo size extents values drained) :=
    settles_deliver addressed tags
  have delivered := settled.recorded fun rank _ => neverWarns_deliver ..
  have concluded : Warns size
      (fun rank => Collective.proceed (conclude rank (values rank))
        (deliveredTo size extents values drained rank))
      (checkedTo size extents values drained) fun rank =>
        Delivery.warnings rank (deliveredTo size extents values drained rank).toOption.join := by
    refine .of_tells fun rank inside => ?_
    rw [checkedTo_eq_bind]
    cases came : deliveredTo size extents values drained rank with
    | error e => exact Program.tells_done _
    | ok found => cases found <;> exact tells_conclude addressed inside came
  refine (delivered.bind (f := fun rank => Collective.proceed (conclude rank (values rank)))
    concluded).congr (fun rank _ => ?_) (fun _ _ => rfl) fun _ _ => rfl
  rw [assembleDrained_eq, Collective.run_bind]
  rfl

/-- Ranks whose buffers are long enough need not look at them. -/
theorem checked_of_room {rank : Nat}
    (room : ((extents rank).rangeAt rank).length ≤ (values rank).length) :
    checked size extents values drained rank = inspected size extents drained rank := by
  rw [checked, checkRoom_eq_ok_iff.2 room]
  rfl

theorem Ready.checked_eq (ready : Ready size extents values drained) {rank : Nat}
    (inside : rank < size) :
    checked size extents values drained rank = inspected size extents drained rank :=
  checked_of_room (ready.room rank inside)

theorem Ready.checkedTo_eq (ready : Ready size extents values drained) {rank : Nat}
    (inside : rank < size) :
    checkedTo size extents values drained rank = assembledTo size extents values drained rank := by
  rw [checkedTo, agreed_congr (fun rank => ready.checked_eq) inside]
  rfl

theorem settles_assembleDrained (ready : Ready size extents values drained)
    (tags : AssemblyTags) :
    Settles size
      (fun rank => (assembleDrained (.member rank size) (extents rank) (values rank)
        (drained rank) tags).run)
      (assembledTo size extents values drained) :=
  (settles_assembleDrained_checked ready.addressed tags).congr (fun _ _ => rfl)
    fun _ => ready.checkedTo_eq

end assembleDrained

end Group
end HaloVector
