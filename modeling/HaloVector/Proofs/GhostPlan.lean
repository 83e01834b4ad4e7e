import Mathlib.Data.List.Nodup
import Mathlib.Data.List.Perm.Subperm
import HaloVector.Halo.Plan
import HaloVector.Proofs.Consensus
import HaloVector.Proofs.Ownership

/-!
# Ghost plans of a group

What every rank gets when a group builds its plans together. A rank knows which ids it
wants from whom (`shares`), and one exchange tells it what the others want from it
(`Plan.asked`).

* `groupByOwner_eq_ok` says what good ghost ids are.
* `Plan.validate_ofLists` shows that a plan which was built is valid.
* `Group.settles_build` puts the parts together.
-/

namespace HaloVector

/-! ## Ghost ids -/

theorem nodup_of_firstRepeat? {α : Type} [BEq α] [LawfulBEq α] {seen ids : List α}
    (none_twice : firstRepeat? seen ids = none) : ids.Nodup ∧ ∀ id ∈ ids, id ∉ seen := by
  induction ids generalizing seen with
  | nil => exact ⟨List.nodup_nil, nofun⟩
  | cons id rest ih =>
    rw [firstRepeat?] at none_twice
    split at none_twice
    · cases none_twice
    · rename_i unseen
      obtain ⟨distinct, fresh⟩ := ih none_twice
      refine ⟨List.nodup_cons.2 ⟨fun again => fresh id again List.mem_cons_self, distinct⟩, ?_⟩
      intro other member
      rcases List.mem_cons.1 member with rfl | later
      · simpa using unseen
      · exact fun before => fresh other later (List.mem_cons_of_mem id before)

/-- Distinct ids below a bound are no more than the bound. -/
theorem length_le_of_nodup {ids : List UInt64} {bound : UInt64} (distinct : ids.Nodup)
    (below : ∀ id ∈ ids, id < bound) : ids.length ≤ bound.toNat := by
  have numbers : (ids.map UInt64.toNat).Nodup :=
    distinct.map fun _ _ => UInt64.toNat_inj.1
  have within : ids.map UInt64.toNat ⊆ List.range bound.toNat := by
    intro number member
    obtain ⟨id, present, rfl⟩ := List.mem_map.1 member
    exact List.mem_range.2 (UInt64.lt_iff_toNat_lt.1 (below id present))
  simpa using (List.subperm_of_subset numbers within).length_le

/-- Ids that a rank can have as ghosts. -/
structure GoodGhosts (rank : Nat) (e : Extents) (ids : List UInt64) : Prop where
  distinct : ids.Nodup
  known : ∀ id ∈ ids, id < e.globalSize
  others : ∀ id ∈ ids, e.ownerOf id ≠ rank

/-- The ids that are wanted from one owner. -/
def wantedFrom (e : Extents) (ids : List UInt64) (owner : Nat) : List UInt64 :=
  share e (fun id => id) ids owner

def wanted (e : Extents) (ids : List UInt64) : RankMap (List UInt64) :=
  shares e (fun id => id) ids

theorem ghostOwner_eq_ok {e : Extents} {me owner : Nat} {id : UInt64}
    (good : ghostOwner e me id = .ok owner) :
    id < e.globalSize ∧ e.ownerOf id = owner ∧ owner ≠ me := by
  obtain ⟨rank, found, good⟩ := bind_eq_ok_iff.1 good
  have known := Extents.lt_globalSize_of_findOwner found
  rw [Extents.findOwner_eq known] at found
  change (if rank = me then _ else _) = _ at good
  split at good
  · cases good
  · rename_i other
    cases good
    exact ⟨known, Except.ok.inj found, other⟩

theorem groupByOwner_eq_ok {rank size : Nat} {e : Extents} {ids : List UInt64}
    {sorted : IdRange × RankMap (List UInt64)}
    (good : groupByOwner ⟨rank, size⟩ e ids = .ok sorted) :
    e.numRanks = size ∧ GoodGhosts rank e ids ∧ sorted = (e.rangeAt rank, wanted e ids) := by
  obtain ⟨_, numbered, good⟩ := bind_eq_ok_iff.1 good
  obtain ⟨own, ranged, good⟩ := bind_eq_ok_iff.1 good
  obtain ⟨owned, passed, good⟩ := bind_eq_ok_iff.1 good
  cases repeated : firstRepeat? [] ids with
  | some id =>
    simp only [repeated] at good
    cases good
  | none =>
    simp only [repeated] at good
    cases good
    have each : ∀ id ∈ ids, id < e.globalSize ∧ e.ownerOf id ≠ rank ∧
        (do pure (← ghostOwner e rank id, id)) = .ok (e.ownerOf id, id) := by
      intro id member
      obtain ⟨_, -, entry⟩ := exists_of_mapM_eq_ok passed member
      obtain ⟨owner, found, -⟩ := bind_eq_ok_iff.1 entry
      obtain ⟨known, rfl, other⟩ := ghostOwner_eq_ok found
      refine ⟨known, other, ?_⟩
      rw [found]
      rfl
    have ranks : e.numRanks = size := by
      unfold Extents.checkNumRanks at numbered
      split at numbered
      · assumption
      · cases numbered
    refine ⟨ranks, ⟨(nodup_of_firstRepeat? repeated).1, fun id member => (each id member).1,
      fun id member => (each id member).2.1⟩, ?_⟩
    rw [Extents.range_eq (Extents.lt_numRanks_of_range ranged)] at ranged
    rw [mapM_eq_ok fun id member => (each id member).2.2] at passed
    cases ranged
    cases passed
    rfl

section wanted

variable {size rank : Nat} {e : Extents} {ids : List UInt64}

theorem mem_wantedFrom {owner : Nat} {id : UInt64} :
    id ∈ wantedFrom e ids owner ↔ id ∈ ids ∧ e.findOwner id = .ok owner := mem_share

namespace GoodGhosts

variable (good : GoodGhosts rank e ids)

include good

theorem listOf_wanted (owner : Nat) : (wanted e ids).listOf owner = wantedFrom e ids owner :=
  listOf_shares good.known owner

theorem length_wantedFrom_le (owner : Nat) : (wantedFrom e ids owner).length ≤ lastIndex := by
  have few : (wantedFrom e ids owner).length ≤ e.globalSize.toNat :=
    length_le_of_nodup (good.distinct.filter _) fun id member =>
      good.known id (mem_wantedFrom.1 member).1
  exact Nat.le_trans few (Nat.le_of_lt_succ e.globalSize.toNat_lt)

theorem concat_eq : (wanted e ids).concat size = (List.range size).flatMap (wantedFrom e ids) :=
  List.flatMap_congr fun owner _ => good.listOf_wanted owner

theorem counts_eq : (wanted e ids).counts size =
    (List.range size).map fun owner => (wantedFrom e ids owner).length :=
  List.map_congr_left fun owner _ => congrArg List.length (good.listOf_wanted owner)

theorem mem_concat (ranks : e.numRanks = size) {id : UInt64} :
    id ∈ (wanted e ids).concat size ↔ id ∈ ids := by
  rw [good.concat_eq, List.mem_flatMap]
  constructor
  · rintro ⟨owner, -, member⟩
    exact (mem_wantedFrom.1 member).1
  · intro member
    have known := good.known id member
    exact ⟨e.ownerOf id, List.mem_range.2 (ranks ▸ Extents.ownerOf_lt known),
      mem_wantedFrom.2 ⟨member, Extents.findOwner_eq known⟩⟩

/-- No id is wanted twice, not even from different owners. -/
theorem nodup_concat : ((wanted e ids).concat size).Nodup := by
  rw [good.concat_eq, List.nodup_flatMap]
  refine ⟨fun owner _ => good.distinct.filter _, List.nodup_range.imp fun {one other} apart => ?_⟩
  intro id first second
  have same := (mem_wantedFrom.1 first).2.symm.trans (mem_wantedFrom.1 second).2
  exact apart (Except.ok.inj same)

end GoodGhosts

end wanted

/-! ## What is asked -/

theorem localizeRequests_eq_ok {me : Nat} {own : IdRange} {requests : RankMap (List UInt64)}
    {places : List Nat} (passed : localizeRequests me own requests = .ok places) :
    (∀ request ∈ requests.toList, ∀ id ∈ request.2, own.contains id) ∧
      places = requests.toList.flatMap fun request => request.2.map own.offset := by
  obtain ⟨lists, each, flat⟩ := bind_eq_ok_iff.1 passed
  have held : ∀ request ∈ requests.toList, ∀ id ∈ request.2, own.contains id := by
    intro request asked id member
    obtain ⟨_, -, here⟩ := exists_of_mapM_eq_ok each asked
    obtain ⟨_, -, this⟩ := exists_of_mapM_eq_ok here member
    by_contra foreign
    rw [if_neg foreign] at this
    cases this
  refine ⟨held, ?_⟩
  rw [mapM_eq_ok fun request asked =>
    mapM_eq_ok fun id member => if_pos (held request asked id member)] at each
  cases each
  cases flat
  rfl

/-! ## Plans -/

section positions

variable {wanted : RankMap (List UInt64)} {size : Nat} (distinct : (wanted.concat size).Nodup)

include distinct

theorem pairwise_zipIdx :
    (wanted.concat size).zipIdx.Pairwise fun one other => ¬compare one.1 other.1 = .eq := by
  rw [← List.zipIdx_map_fst 0 (wanted.concat size), List.Nodup, List.pairwise_map] at distinct
  exact distinct.imp fun apart same => apart (Std.LawfulEqOrd.compare_eq_iff_eq.1 same)

/-- The position of a wanted id is where it is among all that are wanted. -/
theorem getElem?_positionsOf {id : UInt64} {place : Nat} :
    (Plan.positionsOf wanted size)[id]? = some place ↔
      (wanted.concat size)[place]? = some id := by
  have listed := pairwise_zipIdx distinct
  unfold Plan.positionsOf
  rw [← List.mk_mem_zipIdx_iff_getElem?]
  have itself (id : UInt64) : compare id id = .eq := Std.LawfulEqOrd.compare_eq_iff_eq.2 rfl
  constructor
  · intro found
    have known : ((wanted.concat size).zipIdx.map Prod.fst).contains id := by
      by_contra unknown
      rw [Std.ExtTreeMap.getElem?_ofList_of_contains_eq_false (by simpa using unknown)] at found
      cases found
    obtain ⟨⟨_, there⟩, member, rfl⟩ := List.mem_map.1 (List.contains_iff_mem.1 known)
    rw [Std.ExtTreeMap.getElem?_ofList_of_mem (itself _) listed member] at found
    cases found
    exact member
  · exact Std.ExtTreeMap.getElem?_ofList_of_mem (itself id) listed

/-- Every wanted id has a position. -/
theorem exists_positionsOf {id : UInt64} (member : id ∈ wanted.concat size) :
    ∃ place, (Plan.positionsOf wanted size)[id]? = some place ∧
      (wanted.concat size)[place]? = some id := by
  obtain ⟨place, here⟩ := List.getElem?_of_mem member
  exact ⟨place, (getElem?_positionsOf distinct).2 here, here⟩

theorem size_positionsOf :
    (Plan.positionsOf wanted size).size = totalCount (wanted.counts size) := by
  rw [Plan.positionsOf, Std.ExtTreeMap.size_ofList (pairwise_zipIdx distinct),
    List.length_zipIdx, RankMap.length_concat]

end positions

namespace Plan

/-- The plan of a rank that has learned what it takes. -/
def ofLists (size : Nat) (own : IdRange) (wanted asked : RankMap (List UInt64))
    (localIds : List Nat) : Plan where
  outgoing := .packed (asked.counts size)
  incoming := .packed (wanted.counts size)
  localIds
  positions := positionsOf wanted size
  localSize := own.length

theorem validate_ofLists {size : Nat} {own : IdRange} {wanted asked : RankMap (List UInt64)}
    {localIds : List Nat} (distinct : (wanted.concat size).Nodup)
    (sized : localIds.length = totalCount (asked.counts size))
    (inside : ∀ place ∈ localIds, place < own.length) :
    (ofLists size own wanted asked localIds).validate = .ok () := by
  have received : totalCount (ofLists size own wanted asked localIds).incoming.counts =
      (ofLists size own wanted asked localIds).numReceived := (size_positionsOf distinct).symm
  have sent : totalCount (ofLists size own wanted asked localIds).outgoing.counts =
      (ofLists size own wanted asked localIds).numSent := sized.symm
  have entries : (ofLists size own wanted asked localIds).localIds.find?
      ((ofLists size own wanted asked localIds).localSize ≤ ·) = none := by
    refine List.find?_eq_none.2 fun place member => ?_
    exact fun beyond => absurd (of_decide_eq_true beyond) (Nat.not_le.2 (inside place member))
  have ghosts : ((ofLists size own wanted asked localIds).positions.toList.map Prod.snd).find?
      (totalCount (ofLists size own wanted asked localIds).incoming.counts ≤ ·) = none := by
    refine List.find?_eq_none.2 fun place member => ?_
    obtain ⟨⟨id, _⟩, listed, rfl⟩ := List.mem_map.1 member
    rw [Std.ExtTreeMap.mem_toList_iff_getElem?_eq_some] at listed
    have here := (List.getElem?_eq_some_iff.1 ((getElem?_positionsOf distinct).1 listed)).1
    rw [RankMap.length_concat] at here
    exact fun beyond => absurd (of_decide_eq_true beyond) (Nat.not_le.2 here)
  unfold validate
  rw [if_neg (not_not_intro received)]
  show (if _ then _ else _) = _
  rw [if_neg (not_not_intro sent)]
  show (if _ then _ else _) = _
  rw [if_neg (by rintro (other | other) <;> exact other rfl)]
  simp only [entries, ghosts]
  rfl

theorem computes_assertValid {p : Plan} (valid : p.validate = .ok ()) (rank : Option Nat) :
    (ExceptT.lift (p.assertValid rank) : Collective Unit).run.Computes (.ok ()) := by
  unfold assertValid
  rw [valid]
  exact Program.computes_done _

variable (size : Nat) (extents : Nat → Extents) (ids : Nat → List UInt64)

/-- What the others want from a rank. -/
def asked (rank : Nat) : RankMap (List UInt64) :=
  Group.mailFor size (fun source => wanted (extents source) (ids source)) rank

/-- What building plans comes to on a rank. -/
def built (rank : Nat) : Except VectorError Plan := do
  let (own, wanted) ← Group.agreed size
    (fun rank => groupByOwner ⟨rank, size⟩ (extents rank) (ids rank)) "ghost plan build" rank
  let localIds ← Group.agreed size
    (fun rank => localizeRequests rank ((extents rank).rangeAt rank) (asked size extents ids rank))
    "ghost plan build" rank
  pure (ofLists size own wanted (asked size extents ids rank) localIds)

variable {size extents ids}

/-- All ranks of a group have good ghost ids. -/
def Good (size : Nat) (extents : Nat → Extents) (ids : Nat → List UInt64) : Prop :=
  ∀ rank < size, (extents rank).numRanks = size ∧ GoodGhosts rank (extents rank) (ids rank)

/-- The ids that others want from a rank, in the order of the others. -/
def asks (size : Nat) (extents : Nat → Extents) (ids : Nat → List UInt64) (rank : Nat) :
    List UInt64 :=
  (List.range size).flatMap fun source => wantedFrom (extents source) (ids source) rank

section good

variable (good : Good size extents ids) {rank : Nat}

include good

theorem counts_asked : (asked size extents ids rank).counts size =
    (List.range size).map fun source => (wantedFrom (extents source) (ids source) rank).length := by
  refine List.map_congr_left fun source member => ?_
  have inside := List.mem_range.1 member
  rw [asked, Group.listOf_mailFor inside, (good source inside).2.listOf_wanted]

theorem localIds_eq {own : IdRange} {places : List Nat}
    (passed : localizeRequests rank own (asked size extents ids rank) = .ok places) :
    (∀ id ∈ asks size extents ids rank, own.contains id) ∧
      places = (asks size extents ids rank).map own.offset := by
  obtain ⟨held, same⟩ := localizeRequests_eq_ok passed
  have through {β : Type} (f : List UInt64 → List β) (nothing : f [] = []) :
      (asked size extents ids rank).toList.flatMap (fun request => f request.2) =
        (List.range size).flatMap fun source =>
          f (wantedFrom (extents source) (ids source) rank) := by
    rw [asked, Group.flatMap_mailFor fun _ => nothing]
    refine List.flatMap_congr fun source member => ?_
    rw [(good source (List.mem_range.1 member)).2.listOf_wanted]
  constructor
  · intro id member
    rw [asks, ← through (fun list => list) rfl] at member
    obtain ⟨request, arrived, present⟩ := List.mem_flatMap.1 member
    exact held request arrived id present
  · rw [same, through _ rfl, asks, List.map_flatMap]

end good

theorem good_of_grouped
    (grouped : ∀ rank < size, ∃ sorted,
      groupByOwner ⟨rank, size⟩ (extents rank) (ids rank) = .ok sorted) :
    Good size extents ids := by
  intro rank inside
  obtain ⟨sorted, here⟩ := grouped rank inside
  obtain ⟨ranks, good, -⟩ := groupByOwner_eq_ok here
  exact ⟨ranks, good⟩

/-- Where a plan was built, all ranks have good ghost ids, and its entries are those that
were asked for. -/
theorem built_eq_ok {rank : Nat} {plan : Plan}
    (passed : built size extents ids rank = .ok plan) :
    Good size extents ids ∧
      (∀ id ∈ asks size extents ids rank, ((extents rank).rangeAt rank).contains id) ∧
      plan = ofLists size ((extents rank).rangeAt rank) (wanted (extents rank) (ids rank))
        (asked size extents ids rank)
        ((asks size extents ids rank).map ((extents rank).rangeAt rank).offset) := by
  obtain ⟨sorted, grouped, passed⟩ := bind_eq_ok_iff.1 passed
  obtain ⟨places, localized, passed⟩ := bind_eq_ok_iff.1 passed
  obtain ⟨own, all⟩ := Group.eq_ok_of_agreed grouped
  have good := good_of_grouped (Group.failing_eq_nil_iff.1 all)
  obtain ⟨-, -, rfl⟩ := groupByOwner_eq_ok own
  obtain ⟨held, rfl⟩ := localIds_eq good (Group.eq_ok_of_agreed localized).1
  cases passed
  exact ⟨good, held, rfl⟩

theorem length_asks (good : Good size extents ids) (rank : Nat) :
    (asks size extents ids rank).length =
      totalCount ((asked size extents ids rank).counts size) := by
  rw [counts_asked good, asks, List.flatMap_def, ← totalCount_map_length, List.map_map]
  rfl

/-- What a rank makes of the ids that others want is cut into the parts of the others. -/
theorem part_asks (good : Good size extents ids) {β : Type} (f : UInt64 → β) {rank owner : Nat}
    (inside : rank < size) :
    (Layout.packed ((asked size extents ids owner).counts size)).part
        ((asks size extents ids owner).map f) rank =
      (wantedFrom (extents rank) (ids rank) owner).map f := by
  let parts := (List.range size).map fun asker =>
    (wantedFrom (extents asker) (ids asker) owner).map f
  have counts : (asked size extents ids owner).counts size = parts.map List.length := by
    rw [counts_asked good]
    simp [parts]
  have buffer : (asks size extents ids owner).map f = parts.flatten := by
    rw [asks, List.map_flatMap, List.flatMap_def]
  have bound : rank < parts.length := by simpa [parts] using inside
  rw [counts, buffer, Layout.part_packed_flatten bound]
  simp [parts]

end Plan

/-! ## Building -/

namespace Group

variable {size : Nat} (extents : Nat → Extents) (ids : Nat → List UInt64)

/-- All ranks of a group build their plans, or none does. -/
theorem settles_build (tags : ExchangeTags) :
    Settles size
      (fun rank => (Plan.build (.member rank size) (extents rank) (ids rank) tags).run)
      (Plan.built size extents ids) := by
  refine .of_eq (fun rank inside => by
    unfold Plan.build
    simp only [Communicator.topology_member inside]
    exact rfl) ?_
  refine settles_agreeOnOutcome_bind fun sorted same => ?_
  have good : Plan.Good size extents ids :=
    Plan.good_of_grouped fun rank inside => ⟨_, same rank inside⟩
  have found : ∀ rank < size,
      sorted rank = ((extents rank).rangeAt rank, wanted (extents rank) (ids rank)) :=
    fun rank inside => (groupByOwner_eq_ok (same rank inside)).2.2
  have sent := settles_exchangeByRank (fun rank => wanted (extents rank) (ids rank)) tags
    (fun rank inside target member =>
      (good rank inside).1 ▸ lt_numRanks_of_shares (good rank inside).2.known member)
    fun rank inside target _ => by
      rw [(good rank inside).2.listOf_wanted]
      exact (good rank inside).2.length_wantedFrom_le target
  refine .congr ?_ (fun rank inside => by rw [found rank inside]) fun rank inside => by
    rw [found rank inside]
  refine Collective.settles_bind_ok sent (settles_agreeOnOutcome_bind fun places localized => ?_)
  refine .of_computes fun rank inside => ?_
  obtain ⟨held, here⟩ := Plan.localIds_eq good (localized rank inside)
  have sized : (places rank).length =
      totalCount ((Plan.asked size extents ids rank).counts size) := by
    rw [here, List.length_map]
    exact Plan.length_asks good rank
  have within : ∀ place ∈ places rank, place < ((extents rank).rangeAt rank).length := by
    rw [here]
    intro place member
    obtain ⟨id, asked, rfl⟩ := List.mem_map.1 member
    exact IdRange.offset_lt (held id asked)
  have valid := Plan.validate_ofLists (good rank inside).2.nodup_concat sized within
  exact Collective.computes_bind_ok (Plan.computes_assertValid valid _)
    (Collective.computes_bind_ok (fun _ _ => rfl) (Program.computes_done _))

end Group

end HaloVector
