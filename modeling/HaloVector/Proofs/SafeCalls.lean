import HaloVector.Proofs.Session

/-!
# Safe calls

A call is safe if it comes to the same under all schedules and all tags, and leaves
linked families behind (`Call.Safe`). Whatever the ranks pass in, calls that only tell
something are safe, and so are calls that make something: all ranks make their parts of
it together, or none makes anything (`MakesFamily`).
-/

namespace HaloVector

section calls

variable {size : Nat} {ι : Type} {T : ι → Type} [∀ i, Cell (T i)] {families : Nat → Family}

/-- All ranks come through a call, with these reports and families, whatever the tags. -/
def Call.ComesTo (call : Call size T) (families after : Nat → Family)
    (reports : Nat → Report T) : Prop :=
  ∀ (tags : VectorTags) (labels : Nat → Labels), ∃ labels' : Nat → Labels,
    Group.Settles size (fun rank => call.run tags rank (.of families labels rank))
      fun rank => (.of after labels' rank, reports rank)

/-- Families that are linked. -/
def Linked (size : Nat) (families : Nat → Family) : Prop :=
  ∀ name, (families name).Linked size

theorem Linked.update (linked : Linked size families) {f : Family} (sound : f.Linked size)
    (name : Nat) : Linked size (Function.update families name f) := by
  intro other
  by_cases same : other = name
  · subst same
    simpa using sound
  · simpa [same] using linked other

/-- The call goes well. -/
def Call.Safe (call : Call size T) (families : Nat → Family) : Prop :=
  ∃ after reports, Linked size after ∧ call.ComesTo families after reports

/-! ## Calls that leave everything as it is -/

/-- A call that only tells something. -/
theorem safe_of_tell {α : Type} (linked : Linked size families) {call : Call size T}
    {outcomes : Nat → Except VectorError α} {report : α → Report T}
    (settles : ∀ tags labels, Group.Settles size
      (fun rank => call.run tags rank (.of families labels rank))
      fun rank => (Memory.of families labels rank).tell report (outcomes rank)) :
    call.Safe families := by
  refine ⟨families, fun rank => ((Memory.of families default rank).tell report (outcomes rank)).2,
    linked, fun tags labels => ⟨labels, ?_⟩⟩
  exact (settles tags labels).congr (fun _ _ => rfl) fun rank _ => Memory.tell_eq _ _ report _

theorem safe_buildPlan (linked : Linked size families) (extents : Nat → Extents)
    (ids : Nat → List UInt64) : (Call.buildPlan extents ids : Call size T).Safe families :=
  safe_of_tell linked fun tags _ => (Group.settles_build extents ids tags.halo.plan).map _

theorem safe_agreeOnMode (linked : Linked size families) (modes : Nat → QueueMode) :
    (Call.agreeOnMode modes : Call size T).Safe families :=
  safe_of_tell linked fun _ _ => (Group.settles_agreeOnMode modes).map _

theorem safe_agreeOnOutcome (linked : Linked size families) (operations : Nat → String)
    (outcomes : Nat → Except VectorError Unit) :
    (Call.agreeOnOutcome operations outcomes : Call size T).Safe families :=
  safe_of_tell linked fun _ _ => Group.settles_agreeOnOutcome.map _

theorem safe_barrier (linked : Linked size families) :
    (Call.barrier : Call size T).Safe families :=
  safe_of_tell linked fun _ _ => Group.settles_barrier.map _

/-- Where there is no such object, nothing happens. -/
theorem safe_of_absent (linked : Linked size families) {call : Call size T}
    (skips : ∀ tags labels rank,
      call.run tags rank (.of families labels rank) =
        pure (Memory.of families labels rank, .absent)) : call.Safe families := by
  refine ⟨families, fun _ => .absent, linked, fun tags labels => ⟨labels, ?_⟩⟩
  exact .of_eq (fun rank _ => skips tags labels rank) (.done _)

/-- A call that only tells something of a halo. -/
theorem safe_of_halo {α : Type} (linked : Linked size families) {call : Call size T} {name : Nat}
    {report : α → Report T} {work : Nat → Halo → Collective α}
    (runs : ∀ tags rank memory, call.run tags rank memory = memory.onHalo name fun halo => do
      pure (memory.tell report (← (work rank halo).run)))
    (settles : ∀ extents ids halos, Halo.Together size extents ids default halos →
      ∃ outcomes, ∀ tags : HaloTags, Group.Settles size
        (fun rank => (work rank { halos rank with tags }).run) outcomes) :
    call.Safe families := by
  cases kept : families name with
  | halo halos =>
    have made := linked name
    rw [kept] at made
    obtain ⟨extents, ids, together⟩ := made
    obtain ⟨outcomes, settled⟩ := settles extents ids halos together
    refine safe_of_tell linked fun tags labels => .of_eq (fun rank _ => ?_)
      ((settled (labels name).halo).map fun rank => (Memory.of families labels rank).tell report)
    rw [runs, Memory.onHalo, Memory.of, kept]
    rfl
  | nothing | vector =>
    refine safe_of_absent linked fun tags labels rank => ?_
    rw [runs, Memory.onHalo, Memory.of, kept]
    rfl

theorem safe_refresh [∀ i, LawfulCell (T i)] (linked : Linked size families) (name : Nat)
    (kind : ι) (owned ghosts : Nat → List (T kind)) :
    (Call.refresh name kind owned ghosts : Call size T).Safe families :=
  safe_of_halo linked (fun _ _ _ => rfl) fun extents _ halos together =>
    ⟨Group.refreshed size extents halos owned ghosts, fun tags =>
      Group.settles_refresh (together.withTags tags) owned ghosts⟩

theorem safe_refreshBuffer [∀ i, LawfulCell (T i)] (linked : Linked size families) (name : Nat)
    (kind : ι) (buffers : Nat → List (T kind)) :
    (Call.refreshBuffer name kind buffers : Call size T).Safe families :=
  safe_of_halo linked (fun _ _ _ => rfl) fun extents _ halos together =>
    ⟨Group.refreshedBuffer size extents halos buffers, fun tags =>
      Group.settles_refreshBuffer (together.withTags tags) buffers⟩

/-! ## Calls that make something -/

/-- Every rank makes its part of one family, whatever the tags, or none makes anything. -/
def MakesFamily (size : Nat) (outcomes : VectorTags → Nat → Except VectorError Object) : Prop :=
  (∃ (f : Family) (label : VectorTags → Labels), f.Linked size ∧
    ∀ tags, ∀ rank < size, outcomes tags rank = .ok (f.onRank (label tags) rank)) ∨
  ∃ errors : Nat → VectorError, ∀ tags, ∀ rank < size, outcomes tags rank = .error (errors rank)

theorem safe_of_keep (linked : Linked size families) {call : Call size T} {name : Nat}
    {outcomes : VectorTags → Nat → Except VectorError Object}
    (settles : ∀ tags labels, Group.Settles size
      (fun rank => call.run tags rank (.of families labels rank))
      fun rank => (Memory.of families labels rank).keep name (outcomes tags rank))
    (makes : MakesFamily size outcomes) : call.Safe families := by
  rcases makes with ⟨f, label, sound, made⟩ | ⟨errors, stopped⟩
  · refine ⟨Function.update families name f, fun rank => (f.onRank default rank).report,
      linked.update sound name,
      fun tags labels => ⟨Function.update labels name (label tags), ?_⟩⟩
    refine (settles tags labels).congr (fun _ _ => rfl) fun rank inside => ?_
    rw [made tags rank inside, Memory.of_update]
    exact congrArg (Prod.mk _) (f.report_onRank (label tags) default rank)
  -- what had the name before is gone on every rank
  · refine ⟨Function.update families name .nothing, fun rank => .failed (errors rank),
      linked.update (f := .nothing) trivial name,
      fun tags labels => ⟨Function.update labels name default, ?_⟩⟩
    refine (settles tags labels).congr (fun _ _ => rfl) fun rank inside => ?_
    rw [stopped tags rank inside, Memory.of_update]
    rfl

theorem Shard.seated_zeroed {rank : Nat} (inside : rank < size) {e : Extents}
    (ranks : e.numRanks = size) (tags : VectorTags) :
    (Shard.zeroed ⟨rank, size⟩ e tags).Seated size rank :=
  ⟨rfl, Shard.wellFormed_zeroed ranks inside, rfl⟩

theorem linked_plain {shards : Nat → Shard}
    (seated : ∀ rank < size, (shards rank).Seated size rank) :
    (Family.vector fun rank => .plain (shards rank)).Linked size :=
  ⟨seated, .inl fun rank _ => ⟨shards rank, rfl⟩⟩

theorem safe_vectorOver (linked : Linked size families) (name : Nat) (extents : Nat → Extents)
    (ranks : ∀ rank < size, (extents rank).numRanks = size) :
    (Call.vectorOver name extents ranks : Call size T).Safe families := by
  refine safe_of_keep linked (fun tags labels => .done _) (.inl ⟨_, fun tags => ⟨tags, default⟩,
    linked_plain fun rank inside => Shard.seated_zeroed inside (ranks rank inside) default,
    fun tags rank inside => ?_⟩)
  exact congrArg (Except.map fun shard => Object.vector (.plain shard))
    (Shard.ofExtents_member inside (ranks rank inside) tags)

theorem safe_makeVector (linked : Linked size families) (name : Nat)
    (sizes globals : Nat → UInt64) :
    (Call.makeVector name sizes globals : Call size T).Safe families := by
  refine safe_of_keep linked (fun tags labels => Shard.settles_create.map _) ?_
  rcases Shard.created_cases size sizes globals with ⟨e, ranks, made⟩ | ⟨errors, stopped⟩
  · refine .inl ⟨_, fun tags => ⟨tags, default⟩,
      linked_plain fun rank inside => Shard.seated_zeroed inside ranks default,
      fun tags rank inside => ?_⟩
    exact congrArg (Except.map fun shard => Object.vector (.plain shard)) (made tags rank inside)
  · refine .inr ⟨errors, fun tags rank inside => ?_⟩
    exact congrArg (Except.map fun shard => Object.vector (.plain shard))
      (stopped tags rank inside)

/-- Halos are made together, and their tags are only kept with them. -/
def MakesHalos (size : Nat) (outcomes : HaloTags → Nat → Except VectorError Halo) : Prop :=
  (∀ tags rank, outcomes tags rank =
    (outcomes default rank).map fun halo => { halo with tags }) ∧
  ((∃ extents ids halos, Halo.Together size extents ids default halos ∧
      ∀ rank < size, outcomes default rank = .ok (halos rank)) ∨
    ∃ errors : Nat → VectorError, ∀ rank < size, outcomes default rank = .error (errors rank))

theorem makesHalos_built (size : Nat) (extents : Nat → Extents) (ids : Nat → List UInt64) :
    MakesHalos size (Halo.built size extents ids) := by
  refine ⟨fun tags rank => Halo.built_tags size extents ids tags default rank, ?_⟩
  rcases Halo.unanimous_built size extents ids default with ⟨halos, made⟩ | ⟨errors, stopped⟩
  · exact .inl ⟨extents, ids, halos, made, made⟩
  · exact .inr ⟨errors, stopped⟩

theorem makesHalos_created (size : Nat) (sizes globals : Nat → UInt64)
    (ids : Nat → List UInt64) : MakesHalos size (Halo.created size sizes globals ids) := by
  refine ⟨fun tags rank => Halo.created_tags default rank, ?_⟩
  rcases Halo.created_cases with ⟨e, halos, together, made⟩ | ⟨errors, stopped⟩
  · exact .inl ⟨fun _ => e, ids, halos, together, made⟩
  · exact .inr ⟨errors, stopped⟩

/-- What is made of halos that were made together is a family if it is for good halos. -/
theorem MakesHalos.makesFamily {outcomes : HaloTags → Nat → Except VectorError Halo}
    (makes : MakesHalos size outcomes) {object : VectorTags → Halo → Object}
    (family : ∀ extents ids halos, Halo.Together size extents ids default halos →
      ∃ (f : Family) (label : VectorTags → Labels), f.Linked size ∧
        ∀ tags, ∀ rank < size,
          object tags { halos rank with tags := tags.halo } = f.onRank (label tags) rank) :
    MakesFamily size fun tags rank => (outcomes tags.halo rank).map (object tags) := by
  obtain ⟨relabel, made⟩ := makes
  rcases made with ⟨extents, ids, halos, together, made⟩ | ⟨errors, stopped⟩
  · obtain ⟨f, label, sound, same⟩ := family extents ids halos together
    refine .inl ⟨f, label, sound, fun tags rank inside => ?_⟩
    dsimp only
    rw [relabel, made rank inside]
    exact congrArg Except.ok (same tags rank inside)
  · refine .inr ⟨errors, fun tags rank inside => ?_⟩
    dsimp only
    rw [relabel, stopped rank inside]
    rfl

theorem family_halo (extents : Nat → Extents) (ids : Nat → List UInt64) (halos : Nat → Halo)
    (together : Halo.Together size extents ids default halos) :
    ∃ (f : Family) (label : VectorTags → Labels), f.Linked size ∧
      ∀ tags, ∀ rank < size,
        Object.halo { halos rank with tags := tags.halo } = f.onRank (label tags) rank :=
  ⟨.halo halos, fun tags => ⟨default, tags.halo⟩, ⟨extents, ids, together⟩,
    fun _ _ _ => rfl⟩

theorem safe_haloOver (linked : Linked size families) (name : Nat) (extents : Nat → Extents)
    (ids : Nat → List UInt64) : (Call.haloOver name extents ids : Call size T).Safe families :=
  safe_of_keep linked (fun tags _ => (Halo.settles_ofExtents size extents ids tags.halo).map _)
    ((makesHalos_built size extents ids).makesFamily family_halo)

theorem safe_makeHalo (linked : Linked size families) (name : Nat) (sizes globals : Nat → UInt64)
    (ids : Nat → List UInt64) :
    (Call.makeHalo name sizes globals ids : Call size T).Safe families :=
  safe_of_keep linked (fun _ _ => Halo.settles_create.map _)
    ((makesHalos_created size sizes globals ids).makesFamily family_halo)

theorem linked_ofHalo {extents : Nat → Extents} {ids : Nat → List UInt64} {halos : Nat → Halo}
    (together : Halo.Together size extents ids default halos) :
    (Family.vector fun rank => .ghosted (.ofHalo (halos rank) default)).Linked size := by
  constructor
  · intro rank inside
    have ranks := (together.good inside rank inside).1
    show (Shard.zeroed (halos rank).topology (halos rank).extents default).Seated size rank
    rw [together.topology_eq inside, together.extents_eq inside]
    exact Shard.seated_zeroed inside ranks default
  · refine .inr ⟨extents, ids, halos, together, fun rank inside => ⟨_, _, rfl, ?_, ?_⟩⟩
    · exact together.extents_eq inside
    · rw [List.length_replicate, Halo.numGhosts, together.ghostIds_eq inside]

theorem safe_makeGhosted (linked : Linked size families) (name : Nat)
    (sizes globals : Nat → UInt64) (ids : Nat → List UInt64) :
    (Call.makeGhosted name sizes globals ids : Call size T).Safe families := by
  let object (tags : VectorTags) (halo : Halo) : Object := .vector (.ghosted (.ofHalo halo tags))
  have family : MakesFamily size fun tags rank =>
      (Halo.created size sizes globals ids tags.halo rank).map (object tags) :=
    (makesHalos_created size sizes globals ids).makesFamily
      fun extents ids halos together => ⟨_, fun tags => ⟨tags, tags.halo⟩,
        linked_ofHalo together, fun _ _ _ => rfl⟩
  have settles (tags : VectorTags) (labels : Nat → Labels) : Group.Settles size
      (fun rank => (Call.makeGhosted name sizes globals ids : Call size T).run tags rank
        (.of families labels rank))
      fun rank => (Memory.of families labels rank).keep name
        ((Halo.created size sizes globals ids tags.halo rank).map (object tags)) := by
    refine ((Collective.settles_bind_computes Halo.settles_create fun _ _ _ _ =>
      Program.computes_done _).map _).congr (fun _ _ => rfl) fun rank _ => ?_
    cases Halo.created size sizes globals ids tags.halo rank with
    | ok halo => rfl
    | error e => rfl
  exact safe_of_keep linked settles family

theorem safe_ghostedOver (linked : Linked size families) (name source : Nat) :
    (Call.ghostedOver name source : Call size T).Safe families := by
  cases kept : families source with
  | halo halos =>
    have made := linked source
    rw [kept] at made
    obtain ⟨extents, ids, together⟩ := made
    let f := Family.vector fun rank => .ghosted (.ofHalo (halos rank) default)
    refine ⟨Function.update families name f, fun rank => (f.onRank default rank).report,
      linked.update (linked_ofHalo together) name, fun tags labels =>
      ⟨Function.update labels name ⟨tags, (labels source).halo⟩, ?_⟩⟩
    refine .of_eq (fun rank _ => ?_) (.done _)
    rw [Memory.of_update]
    simp only [Call.run, Memory.onHalo, Memory.of, kept]
    rfl
  | nothing | vector =>
    refine safe_of_absent linked fun tags labels rank => ?_
    simp only [Call.run, Memory.onHalo, Memory.of, kept]
    rfl

end calls

end HaloVector
