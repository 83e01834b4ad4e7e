import HaloVector.Proofs.GroupAssembly

/-!
# All or nothing

An assembly happens on every rank or on none, even if the ranks hold different
extents. The mistake is on the rank that sends an update to the wrong owner, and the
rank that receives it is the one to notice. Before anything is applied every rank learns
of it.

* `VectorPart.Foreign` is an update that reaches a rank which does not own its entry.
* `VectorPart.inspected_cases` says which of them a rank reports.
* `VectorPart.assembleQueued_all_or_nothing` puts both outcomes of a group together.
-/

namespace HaloVector

/-! ## What is found first -/

section found

variable {size : Nat} {extents : Nat → Extents} {updates : Nat → List Update} {owner : Nat}
  {p : Update → Bool}

theorem find?_arrivals : (arrivals size extents updates owner).find? (p ·.2) =
    (Topology.mk owner size).peers.findSome? fun source =>
      ((updates source).find? fun update =>
        (extents source).isOwnedBy update.id owner ∧ p update).map (source, ·) := by
  rw [arrivals, List.find?_flatMap]
  congr 1
  funext source
  rw [List.find?_map, share, ← List.find?_filter]
  rfl

theorem pairwise_peers (topology : Topology) : topology.peers.Pairwise (· < ·) :=
  List.pairwise_lt_range.filter _

/-- The first of the smallest source is found. -/
theorem found_first {source : Nat} {update : Update}
    (found : (arrivals size extents updates owner).find? (p ·.2) = some (source, update)) :
    (source < size ∧ source ≠ owner) ∧
      (∃ front back, updates source = front ++ update :: back ∧
        ((extents source).isOwnedBy update.id owner ∧ p update) ∧
        ∀ earlier ∈ front, ¬((extents source).isOwnedBy earlier.id owner ∧ p earlier)) ∧
      ∀ smaller < source, smaller ≠ owner → ∀ other ∈ updates smaller,
        ¬((extents smaller).isOwnedBy other.id owner ∧ p other) := by
  rw [find?_arrivals, List.findSome?_eq_some_iff] at found
  obtain ⟨before, _, after, split, here, nothing⟩ := found
  obtain ⟨_, first, same⟩ := Option.map_eq_some_iff.1 here
  cases same
  obtain ⟨bad, front, back, queue, fine⟩ := List.find?_eq_some_iff_append.1 first
  have peer : source ∈ (Topology.mk owner size).peers :=
    split ▸ List.mem_append_right before List.mem_cons_self
  obtain ⟨inside, other⟩ := Topology.mem_peers.1 peer
  refine ⟨⟨inside, other⟩, ⟨front, back, queue, by simpa using bad, ?_⟩, ?_⟩
  · rintro earlier member ⟨owned, worse⟩
    have clean := fine earlier member
    simp [owned, worse] at clean
  · rintro smaller below apart update member ⟨owned, worse⟩
    have present : smaller ∈ before ++ source :: after :=
      split ▸ Topology.mem_peers.2 ⟨Nat.lt_trans below inside, apart⟩
    have ascending := split ▸ pairwise_peers (Topology.mk owner size)
    have early : smaller ∈ before := by
      -- peers are looked at in increasing order, so what is smaller came before
      rcases List.mem_append.1 present with early | late
      · exact early
      · have later := (List.pairwise_append.1 ascending).2.1
        rcases List.mem_cons.1 late with rfl | further
        · exact absurd below (Nat.lt_irrefl _)
        · exact absurd below (Nat.lt_asymm (List.rel_of_pairwise_cons later further))
    have clean := List.find?_eq_none.1 (Option.map_eq_none_iff.1 (nothing smaller early))
      update member
    simp [owned, worse] at clean

theorem found_none (nothing : (arrivals size extents updates owner).find? (p ·.2) = none)
    {source : Nat} (inside : source < size) (other : source ≠ owner) :
    ∀ update ∈ updates source, ¬((extents source).isOwnedBy update.id owner ∧ p update) := by
  rw [find?_arrivals, List.findSome?_eq_none_iff] at nothing
  have here := nothing source (Topology.mem_peers.2 ⟨inside, other⟩)
  rw [Option.map_eq_none_iff, List.find?_eq_none] at here
  intro update member
  simpa using here update member

end found

namespace VectorPart

/-! ## Foreign updates -/

/-- `source` has queued an update for `owner`, as far as it knows, but not as far as
`owner` does. -/
structure Foreign (size : Nat) (parts : Nat → VectorPart) (owner source : Nat)
    (update : Update) : Prop where
  inside : source < size
  other : source ≠ owner
  queued : update ∈ (parts source).shard.queue.operations.map Prod.snd
  addressed : (parts source).shard.extents.findOwner update.id = .ok owner
  stranger : ∀ own, (parts owner).shard.extents.range owner = .ok own → ¬own.contains update.id

/-- The foreign update that `owner` reports: the first in the queue of the smallest source. -/
structure FirstForeign (size : Nat) (parts : Nat → VectorPart) (owner source : Nat)
    (update : Update) : Prop where
  foreign : Foreign size parts owner source update
  smallest : ∀ smaller < source, ∀ later, ¬Foreign size parts owner smaller later
  first : ∃ front back,
    (parts source).shard.queue.operations.map Prod.snd = front ++ update :: back ∧
      ∀ earlier ∈ front, ¬Foreign size parts owner source earlier

section

variable {size : Nat} {extents : Nat → Extents} {tags : AssemblyTags} {parts : Nat → VectorPart}
  (filled : ∀ rank < size, (parts rank).Filled size rank (extents rank) tags)

include filled

theorem stranger_iff {owner : Nat} (inside : owner < size) {id : UInt64} :
    (∀ own, (parts owner).shard.extents.range owner = .ok own → ¬own.contains id) ↔
      (!((parts owner).shard.extents.rangeAt owner).contains id) = true := by
  have ranks : (parts owner).shard.extents.numRanks = size :=
    (filled owner inside).extents ▸ (filled owner inside).ranks
  rw [Extents.range_eq (ranks ▸ inside)]
  simp

variable (agree : AgreeOnMode size parts)

include agree

theorem foreign_iff {owner source : Nat} (inside : owner < size) {update : Update} :
    Foreign size parts owner source update ↔
      (source < size ∧ source ≠ owner) ∧
        update ∈ (parts source).shard.queue.drained.updates ∧
          ((parts source).shard.extents.isOwnedBy update.id owner ∧
            !((parts owner).shard.extents.rangeAt owner).contains update.id) := by
  rw [← stranger_iff filled inside, Extents.isOwnedBy_iff]
  constructor
  · rintro ⟨within, other, queued, addressed, stranger⟩
    rw [← drained_updates filled agree within] at queued
    exact ⟨⟨within, other⟩, queued, addressed, stranger⟩
  · rintro ⟨⟨within, other⟩, queued, addressed, stranger⟩
    rw [drained_updates filled agree within] at queued
    exact ⟨within, other, queued, addressed, stranger⟩

/-- What a rank makes of what it receives. -/
theorem inspected_cases {owner : Nat} (inside : owner < size) :
    (∃ source update, FirstForeign size parts owner source update ∧
      Group.inspected size (fun rank => (parts rank).shard.extents)
        (fun rank => (parts rank).shard.queue.drained) owner =
      .error (.foreignAssemblyTarget owner source update.id
        ((parts owner).shard.extents.rangeAt owner).start
        ((parts owner).shard.extents.rangeAt owner).stop)) ∨
    ((∀ source update, ¬Foreign size parts owner source update) ∧
      ∃ received, Group.inspected size (fun rank => (parts rank).shard.extents)
        (fun rank => (parts rank).shard.queue.drained) owner = .ok received) := by
  unfold Group.inspected inspect
  cases found : (Group.arriving size (fun rank => (parts rank).shard.extents)
      (fun rank => (parts rank).shard.queue.drained) owner).find?
        (!((parts owner).shard.extents.rangeAt owner).contains ·.2.id) with
  | none =>
    refine .inr ⟨fun source update foreign => ?_, _, rfl⟩
    obtain ⟨⟨within, other⟩, queued, bad⟩ := (foreign_iff filled agree inside).1 foreign
    exact found_none (p := fun update =>
      !((parts owner).shard.extents.rangeAt owner).contains update.id) found within other
        update queued bad
  | some intruder =>
    obtain ⟨source, update⟩ := intruder
    obtain ⟨⟨within, other⟩, ⟨front, back, queue, bad, fine⟩, smallest⟩ :=
      found_first (p := fun update =>
        !((parts owner).shard.extents.rangeAt owner).contains update.id) found
    refine .inl ⟨source, update, ⟨?_, ?_, front, back, ?_, ?_⟩, rfl⟩
    · rw [foreign_iff filled agree inside]
      refine ⟨⟨within, other⟩, ?_, bad⟩
      rw [queue]
      exact List.mem_append_right front List.mem_cons_self
    · intro smaller below later foreign
      obtain ⟨⟨-, apart⟩, queued, worse⟩ := (foreign_iff filled agree inside).1 foreign
      exact smallest smaller below apart later queued worse
    · rw [← drained_updates filled agree within]
      exact queue
    · intro earlier member foreign
      exact fine earlier member ((foreign_iff filled agree inside).1 foreign).2.2

omit filled agree in
/-- The ranks that something foreign reaches. -/
def detecting (size : Nat) (parts : Nat → VectorPart) : List Nat :=
  Group.failing size (Group.inspected size (fun rank => (parts rank).shard.extents)
    fun rank => (parts rank).shard.queue.drained)

theorem mem_detecting {owner : Nat} : owner ∈ detecting size parts ↔
    owner < size ∧ ∃ source update, Foreign size parts owner source update := by
  rw [detecting, Group.mem_failing]
  refine and_congr_right fun inside => ?_
  rcases inspected_cases filled agree inside with
    ⟨source, update, first, failed⟩ | ⟨clean, _, passed⟩
  · exact ⟨fun _ => ⟨source, update, first.foreign⟩, fun _ => ⟨_, failed⟩⟩
  · constructor
    · rintro ⟨e, failed⟩
      cases passed.symm.trans failed
    · rintro ⟨source, update, foreign⟩
      exact absurd foreign (clean source update)

/-- What is foreign is a fatal error. -/
theorem failureClass_eq (some' : detecting size parts ≠ []) :
    Group.failureClass size (Group.inspected size (fun rank => (parts rank).shard.extents)
      fun rank => (parts rank).shard.queue.drained) = .protocol := by
  obtain ⟨owner, member⟩ := List.exists_mem_of_ne_nil _ some'
  obtain ⟨inside, _, _, foreign⟩ := (mem_detecting filled agree).1 member
  rcases inspected_cases filled agree inside with ⟨_, _, _, failed⟩ | ⟨clean, _⟩
  · exact Group.failureClass_eq_protocol_iff.2 ⟨owner, inside, _, failed, rfl⟩
  · exact absurd foreign (clean _ _)

theorem groupModeOf_ne_empty {owner source : Nat} {update : Update}
    (foreign : Foreign size parts owner source update) : groupModeOf size parts ≠ .empty := by
  obtain ⟨operation, queued, -⟩ := List.mem_map.1 foreign.queued
  rw [← mode_of_mem_operations filled agree foreign.inside queued]
  cases operation.1 <;> decide

/-- What a rank comes to when the modes agree. -/
theorem outcomeOf_cases {rank : Nat} (inside : rank < size) :
    (detecting size parts = [] ∧ ∃ values, outcomeOf size parts rank = .ok values) ∨
    (∃ source update, FirstForeign size parts rank source update ∧
      outcomeOf size parts rank = .error (.foreignAssemblyTarget rank source update.id
        ((parts rank).shard.extents.rangeAt rank).start
        ((parts rank).shard.extents.rangeAt rank).stop)) ∨
    (detecting size parts ≠ [] ∧ rank ∉ detecting size parts ∧
      outcomeOf size parts rank =
        .error (.peerFailed rank "assembly" (detecting size parts) .protocol)) := by
  have known := inspected_cases filled agree inside
  rw [outcomeOf_eq agree]
  unfold Group.assembledIn Group.agreed
  by_cases clean : detecting size parts = []
  · refine .inl ⟨clean, ?_⟩
    by_cases nothing : groupModeOf size parts = .empty
    · exact ⟨_, if_pos nothing⟩
    · obtain ⟨received, passed⟩ := Group.failing_eq_nil_iff.1 clean rank inside
      rw [if_neg nothing, passed]
      exact ⟨_, congrArg (Except.map _) (if_pos (List.isEmpty_iff.2 clean))⟩
  · obtain ⟨owner, member⟩ := List.exists_mem_of_ne_nil _ clean
    obtain ⟨-, _, _, foreign⟩ := (mem_detecting filled agree).1 member
    rw [if_neg (groupModeOf_ne_empty filled agree foreign)]
    rcases known with ⟨source, update, first, failed⟩ | ⟨none_here, received, passed⟩
    · exact .inr (.inl ⟨source, update, first, by rw [failed]; rfl⟩)
    · refine .inr (.inr ⟨clean, fun here => ?_, ?_⟩)
      · obtain ⟨-, source, update, foreign⟩ := (mem_detecting filled agree).1 here
        exact none_here source update foreign
      · rw [passed, failureClass_eq filled agree clean]
        exact congrArg (Except.map _) (if_neg (mt List.isEmpty_iff.1 clean))

theorem outcomeOf_ok (clean : detecting size parts = []) {rank : Nat} (inside : rank < size) :
    ∃ values, outcomeOf size parts rank = .ok values := by
  rcases outcomeOf_cases filled agree inside with ⟨-, passed⟩ | ⟨_, _, first, -⟩ | ⟨dirty, -⟩
  · exact passed
  · have here := (mem_detecting filled agree).2 ⟨inside, _, _, first.foreign⟩
    rw [clean] at here
    cases here
  · exact absurd clean dirty

theorem outcomeOf_error (dirty : detecting size parts ≠ []) {rank : Nat} (inside : rank < size) :
    ∃ e, outcomeOf size parts rank = .error e := by
  rcases outcomeOf_cases filled agree inside with ⟨clean, -⟩ | ⟨_, _, -, failed⟩ | ⟨-, -, failed⟩
  · exact absurd clean dirty
  · exact ⟨_, failed⟩
  · exact ⟨_, failed⟩

omit filled agree in
theorem outcomeOf_disagree (disagree : ¬AgreeOnMode size parts) (rank : Nat) :
    ∃ e, outcomeOf size parts rank = .error e := by
  unfold outcomeOf Group.assembledTo
  rw [groupMode_eq_error (mt agreeOnMode_iff.2 disagree)]
  exact ⟨_, rfl⟩

end

/-- An assembly happens on every rank or on none, whatever extents the ranks hold. If the
queues go together, it fails exactly if something foreign reaches some rank. -/
theorem assembleQueued_all_or_nothing {size : Nat} {extents : Nat → Extents}
    {tags : AssemblyTags} {parts : Nat → VectorPart} (calls : Nat → List QueueCall)
    (placed : ∀ rank < size, (parts rank).Placed size rank (extents rank) tags)
    (small : ∀ rank < size, ((parts rank).afterCalls (calls rank)).shard.queue.Addressable) :
    let queued (rank : Nat) := (parts rank).afterCalls (calls rank)
    ∃ after : Nat → Attempt VectorPart,
      Group.Settles size
        (fun rank => DistributedVector.assembleQueued (queued rank) (.member rank size)) after ∧
      (∀ rank < size, (after rank).state.shard.queue = .empty ∧
        (after rank).state.shard.mode = .empty) ∧
      ((∀ rank < size, (after rank).outcome = .ok ()) ∨
        ∀ rank < size, (∃ e, (after rank).outcome = .error e) ∧
          (after rank).state.shard.values = (parts rank).shard.values ∧
          (after rank).state.ghosts = (parts rank).ghosts) ∧
      (AgreeOnMode size queued → ∃ detecting : List Nat,
        detecting.Pairwise (· < ·) ∧
        (∀ owner, owner ∈ detecting ↔
          owner < size ∧ ∃ source update, Foreign size queued owner source update) ∧
        ((∀ rank < size, (after rank).outcome = .ok ()) ↔ detecting = []) ∧
        (∀ owner ∈ detecting, ∃ source update own,
          FirstForeign size queued owner source update ∧
          (extents owner).range owner = .ok own ∧
          (after owner).outcome =
            .error (.foreignAssemblyTarget owner source update.id own.start own.stop)) ∧
        (detecting ≠ [] → ∀ rank < size, rank ∉ detecting →
          (after rank).outcome = .error (.peerFailed rank "assembly" detecting .protocol))) := by
  intro queued
  have filled : ∀ rank < size, (queued rank).Filled size rank (extents rank) tags :=
    fun rank inside => (placed rank inside).filled inside (calls rank)
  have keeps (rank : Nat) (inside : rank < size)
      (failed : ∃ e, outcomeOf size queued rank = .error e) :
      (∃ e, (afterAssembly size queued rank).outcome = .error e) ∧
        (afterAssembly size queued rank).state.shard.values = (parts rank).shard.values ∧
        (afterAssembly size queued rank).state.ghosts = (parts rank).ghosts := by
    obtain ⟨e, came⟩ := failed
    rw [afterAssembly_error came, shard_withShard, ghosts_withShard]
    exact ⟨⟨e, rfl⟩, (placed rank inside).values_afterCalls (calls rank), ghosts_withShard _ _⟩
  have passes (rank : Nat) (passed : ∃ values, outcomeOf size queued rank = .ok values) :
      (afterAssembly size queued rank).outcome = .ok () := by
    obtain ⟨values, came⟩ := passed
    rw [afterAssembly_ok came]
  refine ⟨_, settles_assembleQueued filled small, fun rank _ =>
    ⟨queue_afterAssembly .., congrArg OpQueue.mode (queue_afterAssembly ..)⟩, ?_, fun agree =>
    ⟨detecting size queued, List.pairwise_lt_range.filter _,
      fun owner => mem_detecting filled agree, ⟨fun all => ?_, fun clean rank inside => ?_⟩,
      fun owner member => ?_, fun dirty rank inside absent => ?_⟩⟩
  · by_cases agree : AgreeOnMode size queued
    · by_cases clean : detecting size queued = []
      · exact .inl fun rank inside => passes rank (outcomeOf_ok filled agree clean inside)
      · exact .inr fun rank inside =>
          keeps rank inside (outcomeOf_error filled agree clean inside)
    · exact .inr fun rank inside => keeps rank inside (outcomeOf_disagree agree rank)
  · refine List.eq_nil_iff_forall_not_mem.2 fun owner member => ?_
    have inside := ((mem_detecting filled agree).1 member).1
    obtain ⟨⟨e, failed⟩, -⟩ := keeps owner inside
      (outcomeOf_error filled agree (List.ne_nil_of_mem member) inside)
    cases (all owner inside).symm.trans failed
  · exact passes rank (outcomeOf_ok filled agree clean inside)
  · have inside := ((mem_detecting filled agree).1 member).1
    rcases outcomeOf_cases filled agree inside with
      ⟨clean, -⟩ | ⟨source, update, first, failed⟩ | ⟨-, absent, -⟩
    · exact absurd clean (List.ne_nil_of_mem member)
    · rw [(filled owner inside).extents] at failed
      exact ⟨source, update, _, first, Extents.range_eq ((filled owner inside).ranks ▸ inside),
        by rw [afterAssembly_error failed]⟩
    · exact absurd member absent
  · rcases outcomeOf_cases filled agree inside with
      ⟨clean, -⟩ | ⟨_, _, first, -⟩ | ⟨-, -, failed⟩
    · exact absurd clean dirty
    · exact absurd ((mem_detecting filled agree).2 ⟨inside, _, _, first.foreign⟩) absent
    · rw [afterAssembly_error failed]

/-- Two ranks that do not agree on who owns the second entry of three. -/
def splitExtents : Nat → Extents
  | 0 => oneAndTwo
  | _ => ⟨[2, 3], by decide, by decide⟩

def splitParts (rank : Nat) : VectorPart :=
  plain ⟨⟨rank, 2⟩, splitExtents rank, [.one], .empty, default⟩

/-- The first rank sends away what nobody takes. -/
def splitCalls : Nat → List QueueCall
  | 0 => [.one .add ⟨0, .one⟩, .one .add ⟨1, .one⟩]
  | _ => [.one .add ⟨2, .one⟩]

theorem assembleQueued_all_or_nothing_split : ∃ after : Nat → Attempt VectorPart,
    Group.Settles 2
      (fun rank => DistributedVector.assembleQueued
        ((splitParts rank).afterCalls (splitCalls rank)) (.member rank 2)) after ∧
    (after 1).outcome = .error (.foreignAssemblyTarget 1 0 1 2 3) ∧
    (after 0).state.shard.values = [.one] := by
  let queued (rank : Nat) := (splitParts rank).afterCalls (splitCalls rank)
  have placed : ∀ rank < 2, (splitParts rank).Placed 2 rank (splitExtents rank)
      (default : VectorTags).assembly
    | 0, _ => ⟨rfl, rfl, ⟨rfl, rfl⟩, rfl, rfl⟩
    | 1, _ => ⟨rfl, rfl, ⟨rfl, rfl⟩, rfl, rfl⟩
  have small : ∀ rank < 2, (queued rank).shard.queue.Addressable := by
    decide
  have agree : AgreeOnMode 2 queued := by
    decide
  have foreign : Foreign 2 queued 1 0 ⟨1, .one⟩ :=
    ⟨by decide, by decide, by decide, rfl, by rintro _ ⟨⟩; decide⟩
  obtain ⟨after, settled, -, together, reported⟩ :=
    assembleQueued_all_or_nothing splitCalls placed small
  obtain ⟨detecting, -, mem, -, detected, -⟩ := reported agree
  obtain ⟨source, update, own, ⟨⟨inside, other, queued, addressed, -⟩, -, -⟩, ranged, failed⟩ :=
    detected 1 ((mem 1).2 ⟨by decide, 0, _, foreign⟩)
  cases ranged
  obtain rfl : source = 0 := by
    omega
  have which : update ∈ [⟨0, .one⟩, ⟨1, .one⟩] := queued
  simp only [List.mem_cons, List.not_mem_nil, or_false] at which
  rcases which with rfl | rfl
  · cases addressed
  · refine ⟨after, settled, failed, ?_⟩
    rcases together with all | none
    · cases failed.symm.trans (all 1 (by decide))
    · exact (none 0 (by decide)).2.1

end VectorPart

end HaloVector
