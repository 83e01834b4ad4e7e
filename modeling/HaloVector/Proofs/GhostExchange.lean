import HaloVector.GhostedShard
import HaloVector.Proofs.GhostPlan

/-!
# Ghost exchange

Refreshing brings every ghost the value that its owner has for it. Three orders meet
on the way: a rank sends in the order of those who asked, receives in the order of
owners, and keeps its ghosts in the order in which their ids were given.

* `Halo.Together` are the halos of a group that were made in one construction.
* `Group.settles_fetch` follows the values through all three orders.
* `Halo.rounds_deliver` is the result, for any number of rounds.
-/

namespace HaloVector

/-! ## Places -/

theorem entriesAt?_map {α β : Type} {buffer : List α} {place : β → Nat} {entry : β → α}
    {items : List β} (each : ∀ item ∈ items, buffer[place item]? = some (entry item)) :
    entriesAt? buffer (items.map place) = some (items.map entry) := by
  unfold entriesAt?
  induction items with
  | nil => rfl
  | cons item rest ih =>
    obtain ⟨here, later⟩ := List.forall_mem_cons.1 each
    rw [List.map_cons, List.mapM_cons, here, ih later]
    rfl

theorem checkLength_eq_ok_iff {what : String} {expected got : Nat} :
    checkLength what expected got = .ok () ↔ expected = got := by
  unfold checkLength
  split <;> simp_all

/-! ## Halos of a group -/

namespace Halo

/-- The slots of some ghosts. -/
def slotsOf (plan : Plan) (ids : List UInt64) : Except VectorError (List Nat) :=
  ids.mapM fun id =>
    match plan.position? id with
    | some position => .ok position
    | none => .error (.unknownGhostId id)

/-- The slot of a ghost is the position of its id. -/
def slotIn (plan : Plan) (id : UInt64) : Nat := (plan.position? id).getD 0

theorem slotsOf_eq {plan : Plan} {ids : List UInt64}
    (placed : ∀ id ∈ ids, ∃ position, plan.position? id = some position) :
    slotsOf plan ids = .ok (ids.map (slotIn plan)) := by
  refine mapM_eq_ok fun id member => ?_
  obtain ⟨position, here⟩ := placed id member
  rw [slotIn, here]
  rfl

section

variable (size : Nat) (extents : Nat → Extents) (ids : Nat → List UInt64) (tags : HaloTags)

/-- What making halos comes to on a rank. -/
def built (rank : Nat) : Except VectorError Halo := do
  let places ← Group.agreed size
    (fun rank => ghostPlaces ⟨rank, size⟩ (extents rank) (ids rank))
    "ghost communicator construction" rank
  let plan ← Plan.built size extents ids rank
  let slots ← slotsOf plan (ids rank)
  pure ⟨⟨rank, size⟩, extents rank, ids rank, places, slots, plan, tags⟩

/-- All ranks of a group make their halos, or none does. -/
theorem settles_ofExtents : Group.Settles size
    (fun rank => (ofExtents (.member rank size) (extents rank) (ids rank) tags).run)
    (built size extents ids tags) := by
  refine .of_eq (fun rank inside => by
    unfold ofExtents
    simp only [Communicator.topology_member inside]
    exact rfl) ?_
  refine Group.settles_agreeOnOutcome_bind fun places _ => ?_
  refine Collective.settles_bind_computes (Group.settles_build extents ids tags.plan)
    fun rank _ plan _ => ?_
  show ((Collective.ofExcept (slotsOf plan (ids rank)) >>= _).run).Computes _
  cases slotsOf plan (ids rank) with
  | ok slots => exact Program.computes_done _
  | error e => exact Program.computes_done _

variable {size extents ids} in
theorem exists_position {rank : Nat} (inside : rank < size) {plan : Plan}
    (planned : Plan.built size extents ids rank = .ok plan) :
    ∀ id ∈ ids rank, ∃ position, plan.position? id = some position := by
  obtain ⟨good, -, rfl⟩ := Plan.built_eq_ok planned
  obtain ⟨ranks, mine⟩ := good rank inside
  intro id member
  have distinct : ((wanted (extents rank) (ids rank)).concat size).Nodup := mine.nodup_concat
  obtain ⟨place, here, -⟩ := exists_positionsOf distinct ((mine.mem_concat ranks).2 member)
  exact ⟨place, here⟩

/-- Halos that the ranks of a group have made together. -/
def Together (halos : Nat → Halo) : Prop :=
  ∀ rank < size, built size extents ids tags rank = .ok (halos rank)

end

section together

variable {size : Nat} {extents : Nat → Extents} {ids : Nat → List UInt64} {tags : HaloTags}
  {halos : Nat → Halo} (together : Together size extents ids tags halos) {rank : Nat}
  (inside : rank < size)

include together inside

/-- Everything that is known of such a halo. -/
theorem Together.spec :
    Plan.Good size extents ids ∧
      (∀ id ∈ Plan.asks size extents ids rank, ((extents rank).rangeAt rank).contains id) ∧
      ∃ places,
        let plan := Plan.ofLists size ((extents rank).rangeAt rank)
          (wanted (extents rank) (ids rank)) (Plan.asked size extents ids rank)
          ((Plan.asks size extents ids rank).map ((extents rank).rangeAt rank).offset)
        halos rank = ⟨⟨rank, size⟩, extents rank, ids rank, places,
          (ids rank).map (slotIn plan), plan, tags⟩ := by
  obtain ⟨places, -, passed⟩ := bind_eq_ok_iff.1 (together rank inside)
  obtain ⟨plan, planned, passed⟩ := bind_eq_ok_iff.1 passed
  obtain ⟨slots, found, passed⟩ := bind_eq_ok_iff.1 passed
  rw [slotsOf_eq (exists_position inside planned)] at found
  obtain ⟨good, held, rfl⟩ := Plan.built_eq_ok planned
  cases found
  exact ⟨good, held, places, (Except.ok.inj passed).symm⟩

theorem Together.good : Plan.Good size extents ids := (together.spec inside).1

theorem Together.topology_eq : (halos rank).topology = ⟨rank, size⟩ := by
  obtain ⟨-, -, places, here⟩ := together.spec inside
  rw [here]

theorem Together.extents_eq : (halos rank).extents = extents rank := by
  obtain ⟨-, -, places, here⟩ := together.spec inside
  rw [here]

theorem Together.ghostIds_eq : (halos rank).ghostIds = ids rank := by
  obtain ⟨-, -, places, here⟩ := together.spec inside
  rw [here]

theorem Together.localSize_eq :
    (halos rank).localSize = ((extents rank).rangeAt rank).length := by
  obtain ⟨good, -, places, here⟩ := together.spec inside
  have ranged := Extents.range_eq ((good rank inside).1 ▸ inside : rank < (extents rank).numRanks)
  rw [here, localSize, Extents.localSize, ranged]
  rfl

theorem Together.exchange_eq {α : Type} [Cell α] (c : Communicator) (sent : List α) :
    exchange c sent (halos rank).plan.outgoing (halos rank).plan.incoming (halos rank).tags.values =
      exchange c sent (.packed ((Plan.asked size extents ids rank).counts size))
        (.packed ((wanted (extents rank) (ids rank)).counts size)) tags.values := by
  obtain ⟨-, -, places, here⟩ := together.spec inside
  rw [here]
  rfl

/-- A rank wants only what its owner has. -/
theorem Together.held {id : UInt64} (member : id ∈ ids rank) :
    (extents rank).ownerOf id < size ∧
      ((extents ((extents rank).ownerOf id)).rangeAt ((extents rank).ownerOf id)).contains id := by
  obtain ⟨ranks, good⟩ := together.good inside rank inside
  have known := good.known id member
  have within : (extents rank).ownerOf id < size := ranks ▸ Extents.ownerOf_lt known
  refine ⟨within, (together.spec within).2.1 id ?_⟩
  exact List.mem_flatMap.2 ⟨rank, List.mem_range.2 inside,
    mem_wantedFrom.2 ⟨member, Extents.findOwner_eq known⟩⟩

end together

/-! ## Fetching -/

section fetch

variable {α : Type} [Cell α] {size : Nat} {extents : Nat → Extents} {ids : Nat → List UInt64}
  {tags : HaloTags} {halos : Nat → Halo} {owned : Nat → List α}

/-- The entry for an id on a rank. -/
def entryOn (extents : Nat → Extents) (owned : Nat → List α) (owner : Nat) (id : UInt64) : α :=
  (owned owner).getD (((extents owner).rangeAt owner).offset id) (Cell.zero α)

/-- The entry that a ghost is a copy of. -/
def original (extents : Nat → Extents) (owned : Nat → List α) (rank : Nat) (id : UInt64) : α :=
  entryOn extents owned ((extents rank).ownerOf id) id

variable (together : Together size extents ids tags halos)
  (whole : ∀ rank < size, (owned rank).length = ((extents rank).rangeAt rank).length)
  {rank : Nat} (inside : rank < size)

include together inside

include whole in
/-- Every rank has what it was asked for. -/
theorem entriesAt?_localIds : entriesAt? (owned rank) (halos rank).plan.localIds =
    some ((Plan.asks size extents ids rank).map (entryOn extents owned rank)) := by
  obtain ⟨-, held, places, here⟩ := together.spec inside
  rw [here]
  refine entriesAt?_map fun id asked => ?_
  have present : ((extents rank).rangeAt rank).offset id < (owned rank).length :=
    whole rank inside ▸ IdRange.offset_lt (held id asked)
  rw [entryOn, List.getD_eq_getElem?_getD, List.getElem?_eq_getElem present, Option.getD_some]

omit [Cell α] in
/-- A slot leads to the ghost's own value among the received ones. -/
theorem entriesAt?_slots (value : UInt64 → α) :
    entriesAt? (((wanted (extents rank) (ids rank)).concat size).map value) (halos rank).slots =
      some ((ids rank).map value) := by
  obtain ⟨good, -, places, here⟩ := together.spec inside
  obtain ⟨ranks, mine⟩ := good rank inside
  rw [here]
  -- the plan knows the position of an id, and there the id is
  refine entriesAt?_map fun id member => ?_
  obtain ⟨place, found, back⟩ := exists_positionsOf mine.nodup_concat
    ((mine.mem_concat ranks).2 member)
  change (List.map value _)[(Plan.positionsOf _ size)[id]?.getD 0]? = _
  rw [found, Option.getD_some, List.getElem?_map, back, Option.map_some]

variable (owned) in
/-- What was asked for arrives in the order of owners. -/
theorem delivered_eq :
    Group.delivered size (fun source => (Plan.asked size extents ids source).counts size)
      (fun source => (Plan.asks size extents ids source).map (entryOn extents owned source)) rank =
    ((wanted (extents rank) (ids rank)).concat size).map (original extents owned rank) := by
  have good := together.good inside
  rw [Group.delivered, (good rank inside).2.concat_eq, List.map_flatMap]
  refine List.flatMap_congr fun source _ => ?_
  rw [Plan.part_asks good _ inside]
  refine List.map_congr_left fun id member => ?_
  obtain ⟨queued, found⟩ := mem_wantedFrom.1 member
  rw [Extents.findOwner_eq ((good rank inside).2.known id queued)] at found
  rw [original, Except.ok.inj found]

end fetch

end Halo

/-! ## Refreshing -/

namespace Group

section refresh

variable {α : Type} [Cell α] [LawfulCell α] {size : Nat} {extents : Nat → Extents}
  {ids : Nat → List UInt64} {tags : HaloTags} {halos : Nat → Halo}
  (together : Halo.Together size extents ids tags halos)

include together

/-- Every rank gets the originals of its ghosts, in the order of their ids. -/
theorem settles_fetch {owned : Nat → List α}
    (whole : ∀ rank < size, (owned rank).length = ((extents rank).rangeAt rank).length) :
    Settles size (fun rank => ((halos rank).fetch (.member rank size) (owned rank)).run)
      fun rank => .ok ((ids rank).map (Halo.original extents owned rank)) := by
  refine .of_eq (fun rank inside => by
    unfold Halo.fetch
    simp only [Halo.entriesAt?_localIds together whole inside, Collective.inBounds_some_bind]
    rw [together.exchange_eq inside]) ?_
  have moved := settles_exchange_packed
    (fun rank => (Plan.asks size extents ids rank).map (Halo.entryOn extents owned rank))
    (fun rank => (Plan.asked size extents ids rank).counts size)
    (fun rank => (wanted (extents rank) (ids rank)).counts size) tags.values
    (fun rank _ => RankMap.length_counts ..) (fun rank _ => RankMap.length_counts ..)
    (fun rank inside => Nat.le_of_eq <| by
      rw [List.length_map, Plan.length_asks (together.good inside)])
    fun source inside target within => by
      rw [Plan.counts_asked (together.good inside),
        (together.good inside target within).2.counts_eq]
      simp [List.getD_eq_getElem?_getD, inside, within]
  refine Collective.settles_bind_ok moved (.of_computes fun rank inside => ?_)
  rw [Halo.delivered_eq owned together inside, Halo.entriesAt?_slots together inside,
    Collective.inBounds_some_bind]
  exact Collective.computes_bind_ok (fun _ _ => rfl) (Program.computes_done _)

/-- What refreshing comes to on a rank. Without the right lengths everywhere it fails. -/
def refreshed (size : Nat) (extents : Nat → Extents) (halos : Nat → Halo)
    (owned ghosts : Nat → List α) (rank : Nat) : Except VectorError (List α) := do
  agreed size
    (fun rank => do
      checkLength "local values" (halos rank).localSize (owned rank).length
      checkLength "ghost buffer" (halos rank).numGhosts (ghosts rank).length)
    "ghost exchange" rank
  pure ((halos rank).ghostIds.map (Halo.original extents owned rank))

theorem settles_refresh (owned ghosts : Nat → List α) :
    Settles size
      (fun rank => ((halos rank).refresh (.member rank size) (owned rank) (ghosts rank)).run)
      (refreshed size extents halos owned ghosts) := by
  refine .of_eq (fun rank inside => by
    unfold Halo.refresh
    rw [together.topology_eq inside, Communicator.check_member inside,
      Collective.ofExcept_ok_bind]) ?_
  refine settles_agreeOnOutcome_bind fun _ passed => ?_
  have whole : ∀ rank < size, (owned rank).length = ((extents rank).rangeAt rank).length := by
    intro rank inside
    obtain ⟨_, first, -⟩ := bind_eq_ok_iff.1 (passed rank inside)
    rw [← together.localSize_eq inside, checkLength_eq_ok_iff.1 first]
  refine (settles_fetch together whole).congr (fun _ _ => rfl) fun rank inside => ?_
  rw [together.ghostIds_eq inside]
  rfl

/-- The same for buffers in which the ghosts follow the owned entries. -/
def refreshedBuffer (size : Nat) (extents : Nat → Extents) (halos : Nat → Halo)
    (buffers : Nat → List α) (rank : Nat) : Except VectorError (List α) := do
  agreed size
    (fun rank => checkLength "ghosted buffer" ((halos rank).localSize + (halos rank).numGhosts)
      (buffers rank).length)
    "ghost exchange" rank
  let owned (rank : Nat) := (buffers rank).take (halos rank).localSize
  pure (owned rank ++ (halos rank).ghostIds.map (Halo.original extents owned rank))

theorem settles_refreshBuffer (buffers : Nat → List α) :
    Settles size
      (fun rank => ((halos rank).refreshBuffer (.member rank size) (buffers rank)).run)
      (refreshedBuffer size extents halos buffers) := by
  refine .of_eq (fun rank inside => by
    unfold Halo.refreshBuffer
    rw [together.topology_eq inside, Communicator.check_member inside,
      Collective.ofExcept_ok_bind]) ?_
  refine settles_agreeOnOutcome_bind fun _ passed => ?_
  let owned (rank : Nat) := (buffers rank).take (halos rank).localSize
  have whole : ∀ rank < size, (owned rank).length = ((extents rank).rangeAt rank).length := by
    intro rank inside
    have fits := checkLength_eq_ok_iff.1 (passed rank inside)
    rw [← together.localSize_eq inside, List.length_take, ← fits]
    exact Nat.min_eq_left (Nat.le_add_right _ _)
  have fetched := settles_fetch together whole
  refine (Collective.settles_map (fun rank => (owned rank ++ ·)) fetched).congr
    (fun _ _ => rfl) fun rank inside => ?_
  rw [together.ghostIds_eq inside]
  rfl

section sized

variable {owned ghosts : Nat → List α}
  (sized : ∀ rank < size, (halos rank).localSize = (owned rank).length ∧
    (halos rank).numGhosts = (ghosts rank).length)
  {rank : Nat} (inside : rank < size)

include sized inside

omit [LawfulCell α] in
theorem refreshed_eq : refreshed size extents halos owned ghosts rank =
    .ok ((ids rank).map (Halo.original extents owned rank)) := by
  have lengths : ∀ rank < size, (do
      checkLength "local values" (halos rank).localSize (owned rank).length
      checkLength "ghost buffer" (halos rank).numGhosts (ghosts rank).length) = .ok () := by
    intro rank inside
    obtain ⟨whole, many⟩ := sized rank inside
    rw [checkLength_eq_ok_iff.2 whole, checkLength_eq_ok_iff.2 many]
    rfl
  rw [refreshed, agreed_ok lengths inside, together.ghostIds_eq inside]
  rfl

omit [LawfulCell α] in
theorem refreshedBuffer_eq :
    refreshedBuffer size extents halos (fun rank => owned rank ++ ghosts rank) rank =
      .ok (owned rank ++ (ids rank).map (Halo.original extents owned rank)) := by
  have lengths : ∀ rank < size, checkLength "ghosted buffer"
      ((halos rank).localSize + (halos rank).numGhosts) (owned rank ++ ghosts rank).length =
        .ok () := by
    intro rank inside
    rw [checkLength_eq_ok_iff, (sized rank inside).1, (sized rank inside).2, List.length_append]
  have front : ∀ rank < size,
      (owned rank ++ ghosts rank).take (halos rank).localSize = owned rank :=
    fun rank inside => List.take_left' (sized rank inside).1.symm
  have same : ∀ id ∈ ids rank,
      Halo.original extents
        (fun rank => (owned rank ++ ghosts rank).take (halos rank).localSize) rank id =
        Halo.original extents owned rank id := by
    intro id member
    simp only [Halo.original, Halo.entryOn, front _ (together.held inside member).1]
  rw [refreshedBuffer, agreed_ok lengths inside, together.ghostIds_eq inside]
  exact congrArg Except.ok (congr (congrArg _ (front rank inside)) (List.map_congr_left same))

end sized

end refresh

end Group

/-! ## Rounds -/

namespace Halo

section rounds

variable {ι : Type} {T : ι → Type}

/-- What the ranks pass in for one exchange. -/
structure Round (T : ι → Type) where
  /-- Which cells the buffers hold. -/
  kind : ι
  /-- The ghosts follow the owned entries in one buffer. -/
  joined : Bool
  owned : Nat → List (T kind)
  ghosts : Nat → List (T kind)

/-- The part of one rank in an exchange. -/
def Round.run [∀ i, Cell (T i)] (round : Round T) (h : Halo) (c : Communicator) (rank : Nat) :
    Collective (Σ i, List (T i)) := do
  let buffer ←
    if round.joined then h.refreshBuffer c (round.owned rank ++ round.ghosts rank)
    else h.refresh c (round.owned rank) (round.ghosts rank)
  pure ⟨round.kind, buffer⟩

/-- What an exchange leaves in the buffer of a rank, with new ghosts. -/
def Round.result (round : Round T) (rank : Nat) (fresh : List (T round.kind)) :
    Σ i, List (T i) :=
  ⟨round.kind, if round.joined then round.owned rank ++ fresh else fresh⟩

variable [∀ i, Cell (T i)] [∀ i, LawfulCell (T i)] {size : Nat} {extents : Nat → Extents}
  {ids : Nat → List UInt64} {tags : HaloTags} {halos : Nat → Halo}

/-- The buffers of a round have the right lengths. -/
def Round.Fits (size : Nat) (extents : Nat → Extents) (ids : Nat → List UInt64)
    (round : Round T) : Prop :=
  ∀ rank < size, (extents rank).localSize rank = .ok (round.owned rank).length ∧
    (round.ghosts rank).length = (ids rank).length

theorem settles_round (together : Together size extents ids tags halos) {round : Round T}
    (fits : round.Fits size extents ids) : Group.Settles size
      (fun rank => (round.run (halos rank) (.member rank size) rank).run)
      fun rank => .ok (round.result rank ((ids rank).map (original extents round.owned rank))) := by
  obtain ⟨kind, joined, owned, ghosts⟩ := round
  have sized : ∀ rank < size, (halos rank).localSize = (owned rank).length ∧
      (halos rank).numGhosts = (ghosts rank).length := by
    intro rank inside
    obtain ⟨whole, enough⟩ := fits rank inside
    have ranks := (together.good inside rank inside).1
    rw [Extents.localSize, Extents.range_eq (ranks ▸ inside)] at whole
    rw [together.localSize_eq inside, numGhosts, together.ghostIds_eq inside]
    exact ⟨Except.ok.inj whole, enough.symm⟩
  cases joined with
  | false =>
    exact Collective.settles_map (fun _ buffer => (⟨kind, buffer⟩ : Σ i, List (T i)))
      ((Group.settles_refresh together owned ghosts).congr (fun _ _ => rfl) fun rank inside =>
        Group.refreshed_eq together sized inside)
  | true =>
    exact Collective.settles_map (fun _ buffer => (⟨kind, buffer⟩ : Σ i, List (T i)))
      ((Group.settles_refreshBuffer together fun rank => owned rank ++ ghosts rank).congr
        (fun _ _ => rfl) fun rank inside => Group.refreshedBuffer_eq together sized inside)

/-- Rounds follow each other, although a rank may be ahead of others by several. -/
theorem settles_rounds (together : Together size extents ids tags halos) {rounds : List (Round T)}
    (fits : ∀ round ∈ rounds, round.Fits size extents ids) : Group.Settles size
      (fun rank => (rounds.mapM fun round : Round T =>
        round.run (halos rank) (.member rank size) rank).run)
      fun rank => .ok (rounds.map fun round =>
        round.result rank ((ids rank).map (original extents round.owned rank))) := by
  induction rounds with
  | nil => exact .done _
  | cons round rest ih =>
    obtain ⟨here, later⟩ := List.forall_mem_cons.1 fits
    simp only [List.mapM_cons, List.map_cons]
    exact Collective.settles_bind_ok (settles_round together here)
      (Collective.settles_map _ (ih later))

/-- If all ranks of a group have made their halos, under some schedule, then every round
of refreshing ends well on every rank, under every schedule: each slot holds what the
owner of its id has for it, and owned entries stay as they are. -/
theorem rounds_deliver
    (made : Group.Reaches
      (Group.ofRanks size fun rank =>
        (ofExtents (.member rank size) (extents rank) (ids rank) tags).run)
      (Group.ofRanks size fun rank => .done (.ok (halos rank))))
    (rounds : List (Round T)) (fits : ∀ round ∈ rounds, round.Fits size extents ids) :
    ∃ fresh : (round : Round T) → Nat → List (T round.kind),
      Group.Settles size
        (fun rank => (rounds.mapM fun round : Round T =>
          round.run (halos rank) (.member rank size) rank).run)
        (fun rank => .ok (rounds.map fun round => round.result rank (fresh round rank))) ∧
      ∀ round ∈ rounds, ∀ rank < size,
        (fresh round rank).length = (ids rank).length ∧
        ∀ (slot : Nat) (id : UInt64), (ids rank)[slot]? = some id →
          ∃ owner < size, ∃ own entry,
            (extents rank).findOwner id = .ok owner ∧
            (extents owner).range owner = .ok own ∧ own.contains id ∧
            (round.owned owner)[own.offset id]? = some entry ∧
            (fresh round rank)[slot]? = some entry := by
  have together : Together size extents ids tags halos :=
    (settles_ofExtents size extents ids tags).unique (Group.settles_iff_reaches.2 made)
  refine ⟨fun round rank => (ids rank).map (original extents round.owned rank),
    settles_rounds together fits, fun round member rank inside => ?_⟩
  refine ⟨List.length_map _, fun slot id here => ?_⟩
  have wanted := List.mem_of_getElem? here
  obtain ⟨within, held⟩ := together.held inside wanted
  obtain ⟨ranks, good⟩ := together.good inside rank inside
  obtain ⟨ranksThere, -⟩ := together.good inside _ within
  have ranged := Extents.range_eq (ranksThere.symm ▸ within :
    (extents rank).ownerOf id < (extents ((extents rank).ownerOf id)).numRanks)
  have whole := (fits round member _ within).1
  rw [Extents.localSize, ranged] at whole
  have present := Except.ok.inj whole ▸ IdRange.offset_lt held
  refine ⟨_, within, _, _, Extents.findOwner_eq (good.known id wanted), ranged, held,
    List.getElem?_eq_getElem present, ?_⟩
  rw [List.getElem?_map, here, Option.map_some, original, entryOn, List.getD_eq_getElem?_getD,
    List.getElem?_eq_getElem present, Option.getD_some]

end rounds

/-- Three ranks, of which the second owns nothing. -/
def gapExtents : Extents := ⟨[2, 2, 3], by decide, by decide⟩

def gapIds : Nat → List UInt64
  | 0 => [2]
  | 1 => [2, 0]
  | _ => [1]

def gapOwned : Nat → List UInt64
  | 0 => [10, 20]
  | 1 => []
  | _ => [30]

def gapRound (joined : Bool) : Round fun _ : Unit => UInt64 where
  kind := ()
  joined
  owned := gapOwned
  ghosts rank := (gapIds rank).map fun _ => 0

theorem rounds_deliver_gap : ∃ (halos : Nat → Halo) (fresh : Bool → Nat → List UInt64),
    Group.Settles 3
      (fun rank => ([gapRound true, gapRound false].mapM fun round : Round _ =>
        round.run (halos rank) (.member rank 3) rank).run)
      (fun rank => .ok [(gapRound true).result rank (fresh true rank),
        (gapRound false).result rank (fresh false rank)]) ∧
    ∀ joined, fresh joined 1 = [30, 10] := by
  obtain ⟨first, madeFirst⟩ : ∃ halo, built 3 (fun _ => gapExtents) gapIds default 0 = .ok halo :=
    ⟨_, rfl⟩
  obtain ⟨second, madeSecond⟩ : ∃ halo, built 3 (fun _ => gapExtents) gapIds default 1 = .ok halo :=
    ⟨_, rfl⟩
  obtain ⟨third, madeThird⟩ : ∃ halo, built 3 (fun _ => gapExtents) gapIds default 2 = .ok halo :=
    ⟨_, rfl⟩
  let halos : Nat → Halo
    | 0 => first
    | 1 => second
    | _ => third
  have together : ∀ rank < 3,
      built 3 (fun _ => gapExtents) gapIds default rank = .ok (halos rank)
    | 0, _ => madeFirst
    | 1, _ => madeSecond
    | 2, _ => madeThird
  have whole : ∀ rank < 3, gapExtents.localSize rank = .ok (gapOwned rank).length := by
    decide
  have fits (joined : Bool) : (gapRound joined).Fits 3 (fun _ => gapExtents) gapIds :=
    fun rank inside => ⟨whole rank inside, List.length_map _⟩
  obtain ⟨fresh, settled, facts⟩ := rounds_deliver
    (Group.settles_iff_reaches.1
      ((settles_ofExtents 3 (fun _ => gapExtents) gapIds default).congr (fun _ _ => rfl) together))
    [gapRound true, gapRound false] (by simp [fits])
  refine ⟨halos, fun joined => fresh (gapRound joined), settled, fun joined => ?_⟩
  obtain ⟨two, slots⟩ := facts (gapRound joined) (by cases joined <;> simp) 1 (by decide)
  have entryAt (slot : Nat) (id : UInt64) (here : (gapIds 1)[slot]? = some id) (owner : Nat)
      (owns : gapExtents.findOwner id = .ok owner) (own : IdRange)
      (ranged : gapExtents.range owner = .ok own) :
      (fresh (gapRound joined) 1)[slot]? = ((gapRound joined).owned owner)[own.offset id]? := by
    obtain ⟨_, -, _, _, owned, again, -, there, holds⟩ := slots slot id here
    cases owns.symm.trans owned
    cases ranged.symm.trans again
    exact holds.trans there.symm
  apply List.ext_getElem?
  intro slot
  match slot with
  | 0 => exact entryAt 0 2 rfl 2 rfl ⟨2, 3⟩ rfl
  | 1 => exact entryAt 1 0 rfl 0 rfl ⟨0, 2⟩ rfl
  | slot + 2 => rw [List.getElem?_eq_none (two ▸ Nat.le_add_left 2 slot : _ ≤ slot + 2)]; rfl

end Halo

end HaloVector
