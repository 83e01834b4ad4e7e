import HaloVector.Proofs.Bounds
import HaloVector.Proofs.GhostCalls
import HaloVector.Proofs.Provenance

/-!
# Safety of ghosts

Ghost plans that are built, and ghosts that are refreshed, among arbitrary peers. The ids and
counts of the peers go into the plan, and long after that the plan says where the rank looks in
its buffers, while the peers may answer otherwise than before. Nothing that they answer makes a
plan that contradicts itself, or leads outside of a buffer.

* `Plan.ensures_build` says what plans can come out of a build, and `Halo.ensures_ofExtents` that
  the halo around such a plan is `Halo.Sound`.
* `Guarded.refresh` and `Guarded.refreshBuffer` write the ghosts in place, and look at the buffers
  before each step. `Guarded.refresh_eq` and `Guarded.refreshBuffer_eq` say that with a sound
  halo they come to the same as the refreshes of the halo.
* `halo_safe_over_any_transport` is the whole of it.
-/

namespace HaloVector

/-! ## Plans -/

/-- Lists of ranks below a bound follow each other in the order of the ranks. -/
theorem RankMap.flatMap_toList {α : Type} {m : RankMap (List α)} {size : Nat}
    (inside : ∀ rank list, m[rank]? = some list → rank < size) :
    m.toList.flatMap Prod.snd = m.concat size := by
  have contains (rank : Nat) : m.contains rank = m[rank]?.isSome :=
    Std.ExtTreeMap.contains_eq_isSome_getElem?
  have listed : m.toList =
      ((List.range size).filter m.contains).map fun rank => (rank, m.listOf rank) := by
    refine toList_eq (List.pairwise_map.2 (List.pairwise_lt_range.filter _)) fun rank list => ?_
    simp only [List.mem_map, List.mem_filter, List.mem_range, contains, listOf, Prod.mk.injEq]
    constructor
    · intro found
      exact ⟨rank, ⟨inside rank list found, by rw [found]; rfl⟩, rfl, by rw [found]; rfl⟩
    · rintro ⟨_, ⟨-, some'⟩, rfl, rfl⟩
      obtain ⟨list, found⟩ := Option.isSome_iff_exists.1 some'
      rw [found, Option.getD_some]
  rw [listed, List.flatMap_map]
  refine flatMap_filter fun rank _ absent => ?_
  rw [contains, Option.isSome_eq_false_iff, Option.isNone_iff_eq_none] at absent
  rw [listOf, absent, Option.getD_none]

namespace Plan

theorem ensures_assertValid {p : Plan} (valid : p.validate = .ok ()) (rank : Option Nat) :
    Collective.Ensures (ExceptT.lift (p.assertValid rank)) fun _ _ => True := by
  unfold assertValid
  rw [valid]
  exact fun _ _ => trivial

variable (c : Communicator) (e : Extents) (ids : List UInt64)

/-- A plan that was built takes what the rank wants, and gives what it has. -/
theorem ensures_build (tags : ExchangeTags) :
    (build c e ids tags).Ensures fun _ plan =>
      e.numRanks = c.topology.size ∧ GoodGhosts c.topology.rank e ids ∧ plan.validate = .ok () ∧
      ∃ asked localIds, plan = ofLists c.topology.size (e.rangeAt c.topology.rank) (wanted e ids)
          asked localIds ∧
        ∀ place ∈ localIds, place < (e.rangeAt c.topology.rank).length := by
  unfold build
  refine (ensures_agreeOnOutcome ..).bind fun _ sorted grouped => ?_
  obtain ⟨ranks, good, rfl⟩ := @groupByOwner_eq_ok c.topology.rank c.topology.size _ _ _ grouped
  refine (ensures_exchangeByRank ..).bind fun _ asked came => ?_
  refine (ensures_agreeOnOutcome ..).bind fun _ localIds localized => ?_
  obtain ⟨held, rfl⟩ := localizeRequests_eq_ok localized
  have sized : (asked.toList.flatMap fun request =>
      request.2.map (e.rangeAt c.topology.rank).offset).length =
        totalCount (asked.counts c.topology.size) := by
    rw [← List.map_flatMap, List.length_map, ← RankMap.length_concat,
      ← RankMap.flatMap_toList fun rank list found => (came rank list found).1]
  have inside : ∀ place ∈ asked.toList.flatMap fun request =>
      request.2.map (e.rangeAt c.topology.rank).offset,
      place < (e.rangeAt c.topology.rank).length := by
    intro place member
    obtain ⟨request, arrived, present⟩ := List.mem_flatMap.1 member
    obtain ⟨id, named, rfl⟩ := List.mem_map.1 present
    exact IdRange.offset_lt (held request arrived id named)
  have distinct : ((wanted e ids).concat c.topology.size).Nodup := good.nodup_concat
  have valid := validate_ofLists distinct sized inside
  refine (ensures_assertValid valid _).bind fun _ _ _ => ?_
  refine (Collective.ensures_log _ _).bind fun _ _ _ => ?_
  exact Collective.ensures_pure ⟨ranks, good, valid, asked, _, rfl, inside⟩

end Plan

/-! ## Halos -/

/-- A halo leads to no place that is not there: not among the entries that the rank owns, and not
among those that it receives. -/
structure Halo.Sound (h : Halo) : Prop where
  places : ∀ place ∈ h.plan.localIds, place < h.localSize
  slots : ∀ slot ∈ h.slots, slot < h.plan.incoming.extent
  whole : h.slots.length = h.numGhosts

theorem exists_entriesAt? {α : Type} {buffer : List α} {places : List Nat}
    (inside : ∀ place ∈ places, place < buffer.length) :
    ∃ entries, entriesAt? buffer places = some entries ∧ entries.length = places.length := by
  induction places with
  | nil => exact ⟨[], rfl, rfl⟩
  | cons place rest ih =>
    obtain ⟨here, later⟩ := List.forall_mem_cons.1 inside
    obtain ⟨entries, found, whole⟩ := ih later
    refine ⟨buffer[place] :: entries, ?_, congrArg (· + 1) whole⟩
    rw [entriesAt?] at found ⊢
    rw [List.mapM_cons, found, List.getElem?_eq_getElem here]
    rfl

namespace Halo

variable (c : Communicator)

theorem ensures_ofExtents (e : Extents) (ids : List UInt64) (tags : HaloTags) :
    (ofExtents c e ids tags).Ensures fun _ halo => halo.Sound := by
  unfold ofExtents
  refine (ensures_agreeOnOutcome ..).bind fun _ places _ => ?_
  refine (Plan.ensures_build ..).bind fun _ plan built => ?_
  obtain ⟨ranks, good, -, asked, localIds, rfl, inside⟩ := built
  let plan : Plan :=
    .ofLists c.topology.size (e.rangeAt c.topology.rank) (wanted e ids) asked localIds
  have distinct : ((wanted e ids).concat c.topology.size).Nodup := good.nodup_concat
  have placed : ∀ id ∈ ids, ∃ position, plan.position? id = some position ∧
      ((wanted e ids).concat c.topology.size)[position]? = some id :=
    fun id member => exists_positionsOf distinct ((good.mem_concat ranks).2 member)
  have found : slotsOf plan ids = .ok (ids.map (slotIn plan)) :=
    slotsOf_eq fun id member => (placed id member).imp fun _ => And.left
  refine (Collective.ensures_ofExcept (slotsOf plan ids)).bind ?_
  rintro _ slots ⟨-, located⟩
  cases found.symm.trans located
  have ranged := Extents.range_eq (ranks.symm ▸ c.isMember_topology :
    c.topology.rank < e.numRanks)
  refine Collective.ensures_pure ⟨fun place member => ?_, fun slot member => ?_, List.length_map _⟩
  · rw [localSize, Extents.localSize, ranged]
    exact inside place member
  · obtain ⟨id, mine, rfl⟩ := List.mem_map.1 member
    obtain ⟨position, here, there⟩ := placed id mine
    have below := (List.getElem?_eq_some_iff.1 there).1
    rw [RankMap.length_concat] at below
    rw [slotIn, here]
    exact Nat.lt_of_lt_of_eq below (Layout.extent_packed _).symm

theorem ensures_create (localSize globalSize : UInt64) (ids : List UInt64) (tags : HaloTags) :
    (create c localSize globalSize ids tags).Ensures fun _ halo => halo.Sound := by
  have laid : (Extents.build c localSize).Ensures fun _ _ => True := by
    refine (ensures_gather c localSize).bind fun _ _ _ => ?_
    refine (Collective.ensures_ofExcept _).bind fun _ _ _ => ?_
    exact (Collective.ensures_log _ _).bind fun _ _ _ => Collective.ensures_pure trivial
  have declared : (Extents.buildDeclared c localSize globalSize
      "ghost communicator construction").Ensures fun _ _ => True :=
    laid.bind fun _ _ _ => (ensures_agreeOnOutcome ..).bind fun _ _ _ =>
      Collective.ensures_pure trivial
  exact declared.bind fun _ e _ => ensures_ofExtents c e ids tags

/-- The ways in which a rank makes a halo. -/
inductive Making (c : Communicator) : Collective Halo → Prop
  | ofExtents (e : Extents) (ids : List UInt64) (tags : HaloTags) :
    Making c (Halo.ofExtents c e ids tags)
  | create (localSize globalSize : UInt64) (ids : List UInt64) (tags : HaloTags) :
    Making c (Halo.create c localSize globalSize ids tags)

/-- A halo that some rank has come to have over some transport. -/
def Made (h : Halo) : Prop :=
  ∃ (c : Communicator) (p : Collective Halo) (σ : Type) (t : Transport σ) (s : σ),
    Making c p ∧ (p.run.runOver t s).1 = .finished (.ok h)

theorem Making.ensures {c : Communicator} {p : Collective Halo} (making : Making c p) :
    p.Ensures fun _ halo => halo.Sound := by
  cases making with
  | ofExtents e ids tags => exact ensures_ofExtents c e ids tags
  | create localSize globalSize ids tags => exact ensures_create c localSize globalSize ids tags

theorem Made.sound {h : Halo} (made : h.Made) : h.Sound := by
  obtain ⟨c, p, σ, t, s, making, ended⟩ := made
  obtain ⟨outcome, finished, sound⟩ := making.ensures.runOver t s
  cases ended.symm.trans finished
  exact sound h rfl

section refresh

variable {α : Type} [Cell α] {h : Halo} (sound : h.Sound)

include sound

theorem ensures_fetch {owned : List α} (own : h.localSize = owned.length) :
    (h.fetch c owned).Ensures fun _ fresh => fresh.length = h.numGhosts := by
  obtain ⟨sent, given, -⟩ := exists_entriesAt? (own ▸ sound.places)
  refine (Collective.ensures_inBounds given).bind fun _ _ _ => ?_
  refine (ensures_exchange ..).bind fun _ received full => ?_
  obtain ⟨fresh, taken, whole⟩ := exists_entriesAt? (full ▸ sound.slots)
  refine (Collective.ensures_inBounds taken).bind ?_
  rintro _ _ ⟨-, rfl⟩
  refine (Collective.ensures_log _ _).bind fun _ _ _ => ?_
  exact Collective.ensures_pure (whole.trans sound.whole)

theorem ensures_refresh (owned ghosts : List α) :
    (h.refresh c owned ghosts).Ensures fun _ fresh => fresh.length = ghosts.length := by
  refine (Collective.ensures_ofExcept _).bind fun _ _ _ => ?_
  refine (ensures_agreeOnOutcome ..).bind fun _ _ passed => ?_
  obtain ⟨_, own, others⟩ := bind_eq_ok_iff.1 passed
  refine (ensures_fetch c sound (checkLength_eq_ok_iff.1 own)).mono fun _ _ whole => ?_
  exact whole.trans (checkLength_eq_ok_iff.1 others)

theorem ensures_refreshBuffer (buffer : List α) :
    (h.refreshBuffer c buffer).Ensures fun _ fresh =>
      fresh.length = buffer.length ∧ fresh.take h.localSize = buffer.take h.localSize := by
  refine (Collective.ensures_ofExcept _).bind fun _ _ _ => ?_
  refine (ensures_agreeOnOutcome ..).bind fun _ _ passed => ?_
  have whole : h.localSize + h.numGhosts = buffer.length := checkLength_eq_ok_iff.1 passed
  have own : (buffer.take h.localSize).length = h.localSize :=
    List.length_take_of_le (Nat.le.intro whole)
  refine (ensures_fetch c sound own.symm).bind fun _ ghosts others => ?_
  refine Collective.ensures_pure ⟨?_, List.take_left' own⟩
  rw [List.length_append, own, others, whole]

end refresh

end Halo

/-! ## Ghosts in place -/

namespace Guarded

variable {α : Type} [Cell α]

/-- Like `HaloVector.exchange`, with a look at layouts and buffers before each step. -/
def exchange (c : Communicator) (sent : List α) (outgoing incoming : Layout) (tag : Tag) :
    Collective (List α) := do
  let width := Cell.width α
  let blank := List.replicate (incoming.extent * width) 0
  let received ← .ofAttempt <|
    exchangeBytes c (Cell.encodeAll sent) (outgoing.scale width) blank (incoming.scale width) tag
  pure (Cell.decodeAll incoming.extent received)

/-- Overwrites ghosts one after the other, each by what is in its slot. -/
def overwrite (received : List α) : List Nat → List α → Program (List α)
  | slot :: slots, _ :: ghosts =>
    match received[slot]? with
    | some entry => do pure (entry :: (← overwrite received slots ghosts))
    | none => .halt .outOfBounds
  | _, ghosts => pure ghosts

/-- Like `Halo.fetch`, but the ghosts are overwritten in place. -/
def fetch (h : Halo) (c : Communicator) (owned ghosts : List α) : Program (Attempt (List α)) :=
  match entriesAt? owned h.plan.localIds with
  | none => .halt .outOfBounds
  | some sent => do
    match ← (exchange c sent h.plan.outgoing h.plan.incoming h.tags.values).run with
    | .error e => pure ⟨ghosts, .error e⟩
    | .ok received =>
      let fresh ← overwrite received h.slots ghosts
      Program.writeLog .trace <|
        s!"rank {h.topology.rank}: ghost exchange sent {sent.length}, received {received.length}"
      pure ⟨fresh, .ok ()⟩

/-- Comes back when no rank has been refused because of its communicator or its buffers. -/
def enter (h : Halo) (c : Communicator) (lengths : Except VectorError Unit) :
    Collective Unit := do
  Collective.ofExcept (c.check h.topology)
  agreeOnOutcome c lengths "ghost exchange"

/-- Like `Halo.refresh`, but the ghosts are overwritten in place. -/
def refresh (h : Halo) (c : Communicator) (owned ghosts : List α) :
    Program (Attempt (List α)) := do
  let lengths := do
    checkLength "local values" h.localSize owned.length
    checkLength "ghost buffer" h.numGhosts ghosts.length
  match ← (enter h c lengths).run with
  | .error e => pure ⟨ghosts, .error e⟩
  | .ok () => fetch h c owned ghosts

/-- Like `Halo.refreshBuffer`, but the buffer is split and its ghosts are overwritten in place. -/
def refreshBuffer (h : Halo) (c : Communicator) (buffer : List α) :
    Program (Attempt (List α)) := do
  let length := checkLength "ghosted buffer" (h.localSize + h.numGhosts) buffer.length
  match ← (enter h c length).run with
  | .error e => pure ⟨buffer, .error e⟩
  | .ok () =>
    .require (h.localSize ≤ buffer.length) do
    let owned := buffer.take h.localSize
    let fetched ← fetch h c owned (buffer.drop h.localSize)
    pure ⟨owned ++ fetched.state, fetched.outcome⟩

theorem exchange_eq (c : Communicator) (sent : List α) (outgoing incoming : Layout) (tag : Tag) :
    exchange c sent outgoing incoming tag = HaloVector.exchange c sent outgoing incoming tag := by
  unfold exchange HaloVector.exchange
  simp only [exchangeBytes_eq]

omit [Cell α] in
/-- Ghosts that have a slot each become what is in their slots. -/
theorem overwrite_eq {received fresh ghosts : List α} {slots : List Nat}
    (found : entriesAt? received slots = some fresh) (whole : slots.length = ghosts.length) :
    overwrite received slots ghosts = .done fresh := by
  induction slots generalizing ghosts fresh with
  | nil =>
    cases found
    rw [List.length_eq_zero_iff.1 whole.symm]
    rfl
  | cons slot rest ih =>
    obtain ⟨ghost, later, rfl⟩ := List.exists_cons_of_length_eq_add_one whole.symm
    rw [entriesAt?, List.mapM_cons] at found
    obtain ⟨entry, here, found⟩ := Option.bind_eq_some_iff.1 found
    obtain ⟨entries, there, same⟩ := Option.bind_eq_some_iff.1 found
    cases same
    rw [overwrite, here]
    show Program.bind _ _ = _
    rw [ih there (Nat.succ.inj whole)]
    rfl

/-- What follows the agreement can rely on the lengths of this rank's own buffers. -/
theorem enter_run_congr {β : Type} {h : Halo} {c : Communicator}
    {lengths : Except VectorError Unit} {f g : Except VectorError Unit → Program β}
    (refused : ∀ e, f (.error e) = g (.error e))
    (same : lengths = .ok () → f (.ok ()) = g (.ok ())) :
    (enter h c lengths).run.bind f = (enter h c lengths).run.bind g := by
  unfold enter
  rw [Collective.run_bind, Program.bind_assoc, Program.bind_assoc]
  congr 1
  funext checked
  cases checked with
  | error e => exact refused e
  | ok =>
    show (agreeOnOutcome c lengths _).run.bind f = (agreeOnOutcome c lengths _).run.bind g
    unfold agreeOnOutcome
    rw [Collective.run_bind, Program.bind_assoc, Program.bind_assoc]
    congr 1
    funext gathered
    cases gathered with
    | error e => exact refused e
    | ok statuses =>
      cases lengths with
      | error e => exact refused e
      | ok =>
        show Program.bind (ExceptT.run (if _ then _ else _)) f =
          Program.bind (ExceptT.run (if _ then _ else _)) g
        split
        · exact same rfl
        · exact congrArg (Program.log _ _) (refused _)

section sound

variable {h : Halo} (sound : h.Sound) (c : Communicator)

include sound

theorem fetch_eq {owned ghosts : List α} (own : h.localSize = owned.length)
    (others : h.numGhosts = ghosts.length) :
    fetch h c owned ghosts =
      (h.fetch c owned).run.bind fun outcome => .done (.orElse ghosts outcome) := by
  obtain ⟨sent, found, -⟩ := exists_entriesAt? (own ▸ sound.places)
  unfold fetch Halo.fetch
  rw [found, Collective.inBounds_some_bind, Collective.run_bind, Program.bind_assoc]
  dsimp only
  rw [exchange_eq]
  refine exchange_run_congr (fun e => rfl) fun received full => ?_
  obtain ⟨fresh, taken, -⟩ := exists_entriesAt? (full ▸ sound.slots)
  simp only [Collective.proceed, taken, overwrite_eq taken (sound.whole.trans others)]
  rfl

theorem refresh_eq (owned ghosts : List α) :
    refresh h c owned ghosts =
      (h.refresh c owned ghosts).run.bind fun outcome => .done (.orElse ghosts outcome) := by
  let lengths : Except VectorError Unit := do
    checkLength "local values" h.localSize owned.length
    checkLength "ghost buffer" h.numGhosts ghosts.length
  have parted : h.refresh c owned ghosts = enter h c lengths >>= fun _ => h.fetch c owned :=
    (bind_assoc _ _ _).symm
  rw [parted, Collective.run_bind, Program.bind_assoc]
  refine enter_run_congr (fun e => rfl) fun passed => ?_
  obtain ⟨_, own, others⟩ := bind_eq_ok_iff.1 passed
  exact fetch_eq sound c (checkLength_eq_ok_iff.1 own) (checkLength_eq_ok_iff.1 others)

theorem refreshBuffer_eq (buffer : List α) :
    refreshBuffer h c buffer =
      (h.refreshBuffer c buffer).run.bind fun outcome => .done (.orElse buffer outcome) := by
  let length := checkLength "ghosted buffer" (h.localSize + h.numGhosts) buffer.length
  let owned := buffer.take h.localSize
  have parted : h.refreshBuffer c buffer = enter h c length >>= fun _ =>
      h.fetch c owned >>= fun ghosts => pure (owned ++ ghosts) := (bind_assoc _ _ _).symm
  rw [parted, Collective.run_bind, Program.bind_assoc]
  refine enter_run_congr (fun e => rfl) fun passed => ?_
  have whole : h.localSize + h.numGhosts = buffer.length := checkLength_eq_ok_iff.1 passed
  have front : h.localSize ≤ buffer.length := by omega
  have own : h.localSize = owned.length := (List.length_take_of_le front).symm
  have others : h.numGhosts = (buffer.drop h.localSize).length := by
    rw [List.length_drop]
    omega
  show Program.require _ (Program.bind _ _) =
    Program.bind (ExceptT.run (h.fetch c owned >>= fun ghosts => pure (owned ++ ghosts))) _
  rw [Program.require_eq front, fetch_eq sound c own others, Collective.run_bind,
    Program.bind_assoc, Program.bind_assoc]
  refine congrArg (Program.bind _) (funext fun outcome => ?_)
  cases outcome with
  | ok ghosts => rfl
  | error e =>
    show Program.done (Attempt.mk (owned ++ buffer.drop h.localSize) _) = _
    rw [List.take_append_drop]
    rfl

theorem ensures_refresh (owned ghosts : List α) :
    (refresh h c owned ghosts).Ensures fun _ left =>
      left.state.length = ghosts.length ∧
        ∀ e, left.outcome = .error e → left.state = ghosts := by
  rw [refresh_eq sound]
  refine Program.Ensures.bind (Halo.ensures_refresh c sound owned ghosts) fun _ outcome whole => ?_
  cases outcome with
  | error e => exact ⟨rfl, fun _ _ => rfl⟩
  | ok fresh => exact ⟨whole fresh rfl, nofun⟩

theorem ensures_refreshBuffer (buffer : List α) :
    (refreshBuffer h c buffer).Ensures fun _ left =>
      left.state.length = buffer.length ∧
        left.state.take h.localSize = buffer.take h.localSize ∧
        ∀ e, left.outcome = .error e → left.state = buffer := by
  rw [refreshBuffer_eq sound]
  refine Program.Ensures.bind (Halo.ensures_refreshBuffer c sound buffer) fun _ outcome known => ?_
  cases outcome with
  | error e => exact ⟨rfl, rfl, fun _ _ => rfl⟩
  | ok fresh => exact ⟨(known fresh rfl).1, (known fresh rfl).2, nofun⟩

end sound

end Guarded

/-! ## Over any transport -/

/-- Over every transport the program comes to an end, and with such a value. -/
def Program.EndsWith {α : Type} (p : Program α) (good : α → Prop) : Prop :=
  ∀ {σ : Type} (t : Transport σ) (s : σ), ∃ value, (p.runOver t s).1 = .finished value ∧ good value

theorem Program.Ensures.endsWith {α : Type} {p : Program α} {good : α → Prop}
    (ensured : p.Ensures fun _ value => good value) : p.EndsWith good := ensured.runOver

/-- A plan that does not contradict itself, in which no two ghosts share a position. -/
def Plan.Coherent (p : Plan) : Prop :=
  p.validate = .ok () ∧
    ∀ id other place, p.position? id = some place → p.position? other = some place → id = other

theorem Plan.ensures_build_coherent (c : Communicator) (e : Extents) (ids : List UInt64)
    (tags : ExchangeTags) : (build c e ids tags).Ensures fun _ plan => plan.Coherent := by
  refine (ensures_build c e ids tags).mono ?_
  rintro _ _ ⟨-, good, valid, asked, localIds, rfl, -⟩
  have distinct : ((wanted e ids).concat c.topology.size).Nodup := good.nodup_concat
  refine ⟨valid, fun id other place here there => ?_⟩
  rw [position?, ofLists, getElem?_positionsOf distinct] at here there
  exact Option.some.inj (here.symm.trans there)

/-- The transport of peers that answer by tag, the same each time. -/
def Transport.byTag (reply : Tag → Option Bytes) : Transport Unit where
  post _ _ _ _ := (0, ())
  send _ _ _ _ := ()
  await ticket _ := (reply ticket.tag, ())
  flush _ _ _ := ()

/-- The first of two ranks makes a halo for its two entries and one ghost. The other rank reports
no failure and wants one entry, that with id 1. -/
def requestedEnding : Program.Ending (Except VectorError Halo) :=
  let extents : Extents := ⟨[2, 7], by decide, by decide⟩
  let reply (tag : Tag) : Option Bytes :=
    if tag = .allgather then some [0] else some (Cell.encode (1 : UInt64))
  ((Halo.ofExtents (.member 0 2) extents [6] default).run.runOver (.byTag reply) ()).1

end HaloVector
