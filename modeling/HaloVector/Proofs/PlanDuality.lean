import Mathlib.Data.Set.Function
import Mathlib.Order.Interval.Set.Defs
import HaloVector.Proofs.GhostPlan

/-!
# Duality of plans

What one rank sends to another is what the other expects from it, entry by entry. The two
sides of this are found on different ranks: the receiver lays out the ids that it wants, and
the sender has the requests of the others.

* `Plan.Dual` says of the plans of a group that they fit each other.
* `Plan.dual_of_built`: plans that were built together do.
* `Plan.exists_built`: good ghost ids are enough for plans, if all ranks have the same extents.
* `Plan.build_dual` puts both together.
-/

namespace HaloVector

/-- The ids out of a list that one rank owns, in the order of the list. -/
def Extents.idsOf (e : Extents) (ids : List UInt64) (owner : Nat) : List UInt64 :=
  ids.filter (e.findOwner · = .ok owner)

theorem wantedFrom_eq_idsOf (e : Extents) (ids : List UInt64) (owner : Nat) :
    wantedFrom e ids owner = e.idsOf ids owner :=
  List.filter_congr fun id _ => Bool.eq_iff_iff.2 <| by
    rw [Extents.isOwnedBy_iff, decide_eq_true_iff]

/-! ## Slices of a range -/

theorem map_slice {α β : Type} (f : α → β) (buffer : List α) (offset count : Nat) :
    (slice buffer offset count).map f = slice (buffer.map f) offset count := by
  rw [slice, slice, List.map_take, List.map_drop]

theorem slice_range {offset count length : Nat} (fits : offset + count ≤ length) :
    slice (List.range length) offset count = List.range' offset count := by
  have whole : (slice (List.range length) offset count).length = count :=
    length_slice (by rwa [List.length_range])
  apply List.ext_getElem
  · rw [whole, List.length_range']
  · intro place _ _
    simp [slice]

namespace Plan

/-! ## Fitting plans -/

/-- The plans of the ranks of a group fit each other. -/
structure Dual (size : Nat) (extents : Nat → Extents) (ids : Nat → List UInt64)
    (plans : Nat → Plan) : Prop where
  /-- A plan has one part for every rank. -/
  parts : ∀ rank < size,
    (plans rank).outgoing.counts.length = size ∧ (plans rank).outgoing.offsets.length = size ∧
    (plans rank).incoming.counts.length = size ∧ (plans rank).incoming.offsets.length = size
  /-- As much is sent as is expected. -/
  counts : ∀ rank < size, ∀ owner < size,
    (plans owner).outgoing.count rank = (plans rank).incoming.count owner
  /-- A rank has nothing for itself. -/
  own : ∀ rank < size,
    (plans rank).outgoing.count rank = 0 ∧ (plans rank).incoming.count rank = 0
  /-- Ghosts and received entries correspond one to one. -/
  positions : ∀ rank < size,
    Set.BijOn (plans rank).position? {id | id ∈ ids rank} (some '' Set.Iio (plans rank).numReceived)
  /-- Other ids than those of ghosts have no position. -/
  unknown : ∀ rank < size, ∀ id, id ∉ ids rank → (plans rank).position? id = none
  /-- Ghosts of one owner lie in its part, in the order in which they were given. -/
  received : ∀ rank < size, ∀ owner < size,
    ((extents rank).idsOf (ids rank) owner).map (plans rank).position? =
      (List.range' ((plans rank).incoming.offset owner)
        ((plans rank).incoming.count owner)).map some
  /-- The owner sends the entries of the same ids in the same order, and has them all. -/
  sent : ∀ rank < size, ∀ owner < size, ∃ range,
    (extents owner).range owner = .ok range ∧
    (∀ id ∈ (extents rank).idsOf (ids rank) owner, range.contains id) ∧
    (plans owner).outgoing.part (plans owner).localIds rank =
      ((extents rank).idsOf (ids rank) owner).map range.offset
  /-- What is sent is there. -/
  places : ∀ rank < size, (extents rank).localSize rank = .ok (plans rank).localSize ∧
    ∀ place ∈ (plans rank).localIds, place < (plans rank).localSize

section positions

variable {wanted : RankMap (List UInt64)} {size : Nat} (distinct : (wanted.concat size).Nodup)

include distinct

theorem positionsOf_eq_none_iff {id : UInt64} :
    (positionsOf wanted size)[id]? = none ↔ id ∉ wanted.concat size := by
  constructor
  · intro absent member
    obtain ⟨place, here, -⟩ := exists_positionsOf distinct member
    cases absent.symm.trans here
  · intro absent
    refine Option.eq_none_iff_forall_ne_some.2 fun place here => absent ?_
    exact List.mem_of_getElem? ((getElem?_positionsOf distinct).1 here)

/-- Wanted ids and places among them correspond one to one. -/
theorem bijOn_positionsOf : Set.BijOn (fun id => (positionsOf wanted size)[id]?)
    {id | id ∈ wanted.concat size} (some '' Set.Iio (positionsOf wanted size).size) := by
  rw [size_positionsOf distinct, ← RankMap.length_concat]
  refine ⟨fun id member => ?_, fun one first other _ same => ?_, ?_⟩
  · obtain ⟨place, here, there⟩ := exists_positionsOf distinct member
    exact ⟨place, (List.getElem?_eq_some_iff.1 there).1, here.symm⟩
  · obtain ⟨place, here, there⟩ := exists_positionsOf distinct first
    have again := (getElem?_positionsOf distinct).1 (same.symm.trans here)
    exact Option.some.inj (there.symm.trans again)
  · rintro _ ⟨place, below, rfl⟩
    have there := List.getElem?_eq_getElem (Set.mem_Iio.1 below)
    exact ⟨_, List.getElem_mem _, (getElem?_positionsOf distinct).2 there⟩

/-- The ids of one list have consecutive positions. -/
theorem map_positionsOf_listOf {owner : Nat} (inside : owner < size) :
    (wanted.listOf owner).map (fun id => (positionsOf wanted size)[id]?) =
      (List.range' ((Layout.packed (wanted.counts size)).offset owner)
        ((Layout.packed (wanted.counts size)).count owner)).map some := by
  have all : (wanted.concat size).map (fun id => (positionsOf wanted size)[id]?) =
      (List.range (wanted.concat size).length).map some := by
    apply List.ext_getElem
    · simp
    · intro place below _
      rw [List.length_map] at below
      rw [List.getElem_map, List.getElem_map, List.getElem_range]
      exact (getElem?_positionsOf distinct).2 (List.getElem?_eq_getElem below)
  let layout := Layout.packed (wanted.counts size)
  have fits : layout.offset owner + layout.count owner ≤ totalCount (wanted.counts size) :=
    Layout.packed_fits ((wanted.length_counts size).symm ▸ inside)
  rw [← RankMap.length_concat] at fits
  rw [← Group.part_concat inside, Layout.part, map_slice, all, ← map_slice, slice_range fits]

end positions

/-! ## Plans that were built -/

section built

variable {size : Nat} {extents : Nat → Extents} {ids : Nat → List UInt64}
  (good : Good size extents ids) {rank owner : Nat}

include good

theorem count_wanted (inside : rank < size) (within : owner < size) :
    (Layout.packed ((wanted (extents rank) (ids rank)).counts size)).count owner =
      ((extents rank).idsOf (ids rank) owner).length := by
  rw [Layout.packed_count, (good rank inside).2.counts_eq, ← wantedFrom_eq_idsOf]
  simp [List.getD_eq_getElem?_getD, within]

theorem count_asked (inside : rank < size) :
    (Layout.packed ((asked size extents ids owner).counts size)).count rank =
      ((extents rank).idsOf (ids rank) owner).length := by
  rw [Layout.packed_count, counts_asked good, ← wantedFrom_eq_idsOf]
  simp [List.getD_eq_getElem?_getD, inside]

theorem idsOf_self (inside : rank < size) : (extents rank).idsOf (ids rank) rank = [] := by
  refine List.filter_eq_nil_iff.2 fun id member found => ?_
  have mine := of_decide_eq_true found
  rw [Extents.findOwner_eq ((good rank inside).2.known id member)] at mine
  exact (good rank inside).2.others id member (Except.ok.inj mine)

end built

section dual

variable {size : Nat} {extents : Nat → Extents} {ids : Nat → List UInt64} {plans : Nat → Plan}

/-- Plans that were built together fit each other. -/
theorem dual_of_built (planned : ∀ rank < size, built size extents ids rank = .ok (plans rank)) :
    Dual size extents ids plans := by
  have good : ∀ rank < size, Good size extents ids := fun rank inside =>
    (built_eq_ok (planned rank inside)).1
  have held : ∀ rank < size, ∀ id ∈ asks size extents ids rank,
      ((extents rank).rangeAt rank).contains id := fun rank inside =>
    (built_eq_ok (planned rank inside)).2.1
  have same : ∀ rank < size, plans rank = ofLists size ((extents rank).rangeAt rank)
      (wanted (extents rank) (ids rank)) (asked size extents ids rank)
      ((asks size extents ids rank).map ((extents rank).rangeAt rank).offset) :=
    fun rank inside => (built_eq_ok (planned rank inside)).2.2
  have ranged : ∀ rank < size,
      (extents rank).range rank = .ok ((extents rank).rangeAt rank) := fun rank inside =>
    Extents.range_eq ((good rank inside rank inside).1 ▸ inside)
  have distinct : ∀ rank < size, ((wanted (extents rank) (ids rank)).concat size).Nodup :=
    fun rank inside => (good rank inside rank inside).2.nodup_concat
  have wantedIds : ∀ rank < size, ∀ id,
      id ∈ (wanted (extents rank) (ids rank)).concat size ↔ id ∈ ids rank := fun rank inside id =>
    (good rank inside rank inside).2.mem_concat (good rank inside rank inside).1
  constructor
  case parts =>
    intro rank inside
    rw [same rank inside]
    simp [ofLists, Layout.packed]
  case counts =>
    intro rank inside owner within
    rw [same rank inside, same owner within]
    exact (count_asked (good rank inside) inside).trans
      (count_wanted (good rank inside) inside within).symm
  case own =>
    intro rank inside
    have none_own := congrArg List.length (idsOf_self (good rank inside) inside)
    rw [same rank inside]
    exact ⟨(count_asked (good rank inside) inside).trans none_own,
      (count_wanted (good rank inside) inside inside).trans none_own⟩
  case positions =>
    intro rank inside
    have one_to_one := bijOn_positionsOf (distinct rank inside)
    simp only [wantedIds rank inside] at one_to_one
    rw [same rank inside]
    exact one_to_one
  case unknown =>
    intro rank inside id absent
    rw [same rank inside]
    exact (positionsOf_eq_none_iff (distinct rank inside)).2 fun member =>
      absent ((wantedIds rank inside id).1 member)
  case received =>
    intro rank inside owner within
    rw [same rank inside, ← wantedFrom_eq_idsOf, ← (good rank inside rank inside).2.listOf_wanted]
    exact map_positionsOf_listOf (distinct rank inside) within
  case sent =>
    intro rank inside owner within
    refine ⟨_, ranged owner within, fun id member => held owner within id ?_, ?_⟩
    · rw [← wantedFrom_eq_idsOf] at member
      exact List.mem_flatMap.2 ⟨rank, List.mem_range.2 inside, member⟩
    · rw [same owner within]
      rw [← wantedFrom_eq_idsOf]
      exact part_asks (good rank inside) _ inside
  case places =>
    intro rank inside
    rw [Extents.localSize, ranged rank inside, same rank inside]
    refine ⟨rfl, fun place member => ?_⟩
    obtain ⟨id, wanted, rfl⟩ := List.mem_map.1 member
    exact IdRange.offset_lt (held rank inside id wanted)

end dual

end Plan

/-! ## Good ghost ids -/

theorem firstRepeat?_eq_none {α : Type} [BEq α] [LawfulBEq α] {seen ids : List α}
    (distinct : ids.Nodup) (fresh : ∀ id ∈ ids, id ∉ seen) : firstRepeat? seen ids = none := by
  induction ids generalizing seen with
  | nil => rfl
  | cons id rest ih =>
    obtain ⟨unrepeated, distinct⟩ := List.nodup_cons.1 distinct
    have unseen : seen.contains id = false :=
      Bool.eq_false_iff.2 fun before =>
        fresh id List.mem_cons_self (List.contains_iff_mem.1 before)
    rw [firstRepeat?, unseen]
    refine ih distinct fun other later before => ?_
    rcases List.mem_cons.1 before with rfl | before
    · exact unrepeated later
    · exact fresh other (List.mem_cons_of_mem id later) before

theorem ghostOwner_eq {e : Extents} {me : Nat} {id : UInt64} (known : id < e.globalSize)
    (other : e.ownerOf id ≠ me) : ghostOwner e me id = .ok (e.ownerOf id) := by
  unfold ghostOwner
  rw [Extents.findOwner_eq known]
  exact if_neg other

theorem groupByOwner_eq {rank size : Nat} {e : Extents} {ids : List UInt64}
    (ranks : e.numRanks = size) (inside : rank < size) (good : GoodGhosts rank e ids) :
    groupByOwner ⟨rank, size⟩ e ids = .ok (e.rangeAt rank, wanted e ids) := by
  have each : ∀ id ∈ ids,
      (do pure (← ghostOwner e rank id, id)) =
        (.ok (e.ownerOf id, id) : Except VectorError (Nat × UInt64)) := by
    intro id member
    rw [ghostOwner_eq (good.known id member) (good.others id member)]
    rfl
  have unrepeated : firstRepeat? [] ids = none :=
    firstRepeat?_eq_none good.distinct fun _ _ => List.not_mem_nil
  unfold groupByOwner
  rw [Extents.checkNumRanks, if_pos ranks, Extents.range_eq (ranks.symm ▸ inside),
    mapM_eq_ok each]
  simp only [unrepeated]
  rfl

theorem localizeRequests_eq {me : Nat} {own : IdRange} {requests : RankMap (List UInt64)}
    (held : ∀ request ∈ requests.toList, ∀ id ∈ request.2, own.contains id) :
    localizeRequests me own requests =
      .ok (requests.toList.flatMap fun request => request.2.map own.offset) := by
  unfold localizeRequests
  rw [mapM_eq_ok fun request asked =>
    mapM_eq_ok fun id member => if_pos (held request asked id member)]
  rfl

theorem goodGhosts_iff {rank : Nat} {e : Extents} {ids : List UInt64} :
    GoodGhosts rank e ids ↔
      ids.Nodup ∧ ∀ id ∈ ids, id < e.globalSize ∧ ¬e.isOwnedBy id rank := by
  have others {id : UInt64} (known : id < e.globalSize) :
      e.isOwnedBy id rank ↔ e.ownerOf id = rank := by
    rw [Extents.isOwnedBy_iff, Extents.findOwner_eq known, Except.ok.injEq]
  constructor
  · exact fun good => ⟨good.distinct, fun id member => ⟨good.known id member, fun own =>
      good.others id member ((others (good.known id member)).1 own)⟩⟩
  · rintro ⟨distinct, each⟩
    exact ⟨distinct, fun id member => (each id member).1, fun id member own =>
      (each id member).2 ((others (each id member).1).2 own)⟩

namespace Plan

variable {size : Nat} {extents : Nat → Extents} {ids : Nat → List UInt64}

/-- Good ghost ids that all are asked from ranks that have them are enough for plans. -/
theorem exists_built (good : Good size extents ids)
    (held : ∀ rank < size, ∀ id ∈ asks size extents ids rank,
      ((extents rank).rangeAt rank).contains id) {rank : Nat} (inside : rank < size) :
    ∃ plan, built size extents ids rank = .ok plan := by
  have localized : ∀ rank < size,
      localizeRequests rank ((extents rank).rangeAt rank) (asked size extents ids rank) =
        .ok ((asked size extents ids rank).toList.flatMap fun request =>
          request.2.map ((extents rank).rangeAt rank).offset) := by
    intro rank inside
    refine localizeRequests_eq fun request arrived id member => held rank inside id ?_
    rw [asked, Group.toList_mailFor] at arrived
    obtain ⟨source, listed, rfl⟩ := List.mem_map.1 arrived
    have within := List.mem_range.1 (List.mem_of_mem_filter listed)
    rw [(good source within).2.listOf_wanted] at member
    exact List.mem_flatMap.2 ⟨source, List.mem_range.2 within, member⟩
  have grouped : ∀ rank < size, groupByOwner ⟨rank, size⟩ (extents rank) (ids rank) =
      .ok ((extents rank).rangeAt rank, wanted (extents rank) (ids rank)) :=
    fun rank inside => groupByOwner_eq (good rank inside).1 inside (good rank inside).2
  exact ⟨_, bind_eq_ok_iff.2 ⟨_, Group.agreed_ok grouped inside,
    bind_eq_ok_iff.2 ⟨_, Group.agreed_ok localized inside, rfl⟩⟩⟩

/-- If all ranks have the same extents, good ghost ids are asked from ranks that have them. -/
theorem contains_of_mem_asks {e : Extents} (equal : ∀ rank < size, extents rank = e)
    {rank : Nat} (inside : rank < size) {id : UInt64}
    (member : id ∈ asks size extents ids rank) : ((extents rank).rangeAt rank).contains id := by
  obtain ⟨source, listed, wanted⟩ := List.mem_flatMap.1 member
  have owned := (mem_wantedFrom.1 wanted).2
  rw [equal source (List.mem_range.1 listed), ← equal rank inside] at owned
  exact Extents.contains_rangeAt_of_findOwner owned

/-- Whatever plans the ranks of a group build together, under any schedule, they fit each other.
Ranks with the same extents fail to build them exactly if some rank has an id twice, an id that
does not exist or one of its own. -/
theorem build_dual (size : Nat) (extents : Nat → Extents) (ids : Nat → List UInt64)
    (tags : ExchangeTags) : ∃ outcomes : Nat → Except VectorError Plan,
      Group.Settles size
        (fun rank => (build (.member rank size) (extents rank) (ids rank) tags).run) outcomes ∧
      (∀ plans : Nat → Plan, (∀ rank < size, outcomes rank = .ok (plans rank)) →
        Dual size extents ids plans) ∧
      ∀ e : Extents, e.numRanks = size → (∀ rank < size, extents rank = e) →
        ((∀ rank < size, ∃ plan, outcomes rank = .ok plan) ↔
          ∀ rank < size, (ids rank).Nodup ∧
            ∀ id ∈ ids rank, id < e.globalSize ∧ ¬e.isOwnedBy id rank) := by
  refine ⟨built size extents ids, Group.settles_build extents ids tags,
    fun plans planned => dual_of_built planned, fun e ranks equal => ⟨?_, ?_⟩⟩
  · intro planned rank inside
    obtain ⟨plan, passed⟩ := planned rank inside
    have good := ((built_eq_ok passed).1 rank inside).2
    exact goodGhosts_iff.1 (equal rank inside ▸ good)
  · intro each rank inside
    have good : Good size extents ids := fun rank inside =>
      equal rank inside ▸ ⟨ranks, goodGhosts_iff.2 (each rank inside)⟩
    exact exists_built good (fun rank inside id => contains_of_mem_asks equal inside) inside

/-- Two ranks, of which the second wants both ids of the first, the later one first. -/
def crossedExtents : Extents := ⟨[2, 4], by decide, by decide⟩

def crossedIds : Nat → List UInt64
  | 0 => [2]
  | _ => [1, 0]

theorem build_dual_crossed : ∃ plans : Nat → Plan,
    Group.Settles 2
      (fun rank => (build (.member rank 2) crossedExtents (crossedIds rank) default).run)
      (fun rank => .ok (plans rank)) ∧
    (plans 0).outgoing.count 1 = (plans 1).incoming.count 0 ∧
    (plans 0).outgoing.part (plans 0).localIds 1 = [1, 0] := by
  obtain ⟨outcomes, settled, fit, fails⟩ :=
    build_dual 2 (fun _ => crossedExtents) crossedIds default
  have passed := (fails crossedExtents rfl fun _ _ => rfl).2 fun
    | 0, _ => ⟨by decide, List.forall_mem_singleton.2 (by decide)⟩
    | 1, _ => ⟨by decide, List.forall_mem_cons.2 ⟨by decide,
        List.forall_mem_singleton.2 (by decide)⟩⟩
  obtain ⟨first, here⟩ := passed 0 (by decide)
  obtain ⟨second, there⟩ := passed 1 (by decide)
  let plans : Nat → Plan
    | 0 => first
    | _ => second
  have planned : ∀ rank < 2, outcomes rank = .ok (plans rank)
    | 0, _ => here
    | 1, _ => there
  have dual := fit plans planned
  obtain ⟨range, ranged, -, sent⟩ := dual.sent 1 (by decide) 0 (by decide)
  cases ranged
  exact ⟨plans, settled.congr (fun _ _ => rfl) planned,
    dual.counts 1 (by decide) 0 (by decide), sent⟩

end Plan
end HaloVector
