import HaloVector.Proofs.AssemblySafety

/-!
# Endings

What a program may end with, over one transport or another. Seen from its end, each part of a
program has ended, too.

* `Program.CanEnd` says so of a value. `Program.CanEnd.bind` and `Collective.canEnd_bind` go back
  from the end of a program to the ends of its parts.
* `Collective.BlamesNoId` are the programs that never fail because of an id. So are all that ranks
  do together, and `blamesNoId_assembleDrained` says it of an assembly whose updates all have an
  owner.
-/

namespace HaloVector

namespace Program

variable {α β σ : Type} {value : α}

/-- Over some transport the program ends with this value. -/
def CanEnd (p : Program α) (value : α) : Prop :=
  ∃ (σ : Type) (t : Transport σ) (s : σ), (p.runOver t s).1 = .finished value

theorem canEnd_done_iff {other : α} : (done value).CanEnd other ↔ other = value := by
  constructor
  · rintro ⟨σ, t, s, ⟨⟩⟩
    rfl
  · rintro rfl
    exact ⟨Script, Script.transport, .ofReplies [], rfl⟩

theorem Ensures.of_canEnd {p : Program α} {good : Deliveries → α → Prop}
    (ensured : p.Ensures good) (ended : p.CanEnd value) :
    ∃ delivered, good delivered value := by
  obtain ⟨σ, t, s, finished⟩ := ended
  obtain ⟨other, same, held⟩ := ensured.runOver t s
  cases finished.symm.trans same
  exact ⟨_, held⟩

theorem Conducts.of_canEnd {p : Program α} {good : List Use → α → Prop}
    (conducted : p.Conducts good) (ended : p.CanEnd value) : ∃ uses, good uses value := by
  obtain ⟨σ, t, s, finished⟩ := ended
  obtain ⟨other, same, held⟩ := conducted.runOver t s
  cases finished.symm.trans same
  exact ⟨_, held⟩

theorem exists_runOver_of_bind {p : Program β} {f : β → Program α} (t : Transport σ) {s : σ}
    (finished : ((p.bind f).runOver t s).1 = .finished value) :
    ∃ middle later, (p.runOver t s).1 = .finished middle ∧
      ((f middle).runOver t later).1 = .finished value := by
  induction p generalizing s with
  | done middle => exact ⟨middle, s, rfl, finished⟩
  | halt why => cases finished
  | log level text next ih => exact ih finished
  | post source tag length next ih => exact ih _ finished
  | send target tag data next ih => exact ih finished
  | await ticket next ih => exact ih _ finished
  | flush target tag next ih => exact ih finished

/-- What ends as a whole ends in both of its parts. -/
theorem CanEnd.bind {p : Program β} {f : β → Program α} (ended : (p.bind f).CanEnd value) :
    ∃ middle, p.CanEnd middle ∧ (f middle).CanEnd value := by
  obtain ⟨σ, t, s, finished⟩ := ended
  obtain ⟨middle, later, first, second⟩ := exists_runOver_of_bind t finished
  exact ⟨middle, ⟨σ, t, s, first⟩, σ, t, later, second⟩

end Program

/-! ## Programs that may fail -/

namespace Collective

variable {α β : Type}

theorem canEnd_bind {p : Collective β} {f : β → Collective α} {outcome : Except VectorError α}
    (ended : (p >>= f).run.CanEnd outcome) :
    (∃ e, p.run.CanEnd (.error e) ∧ outcome = .error e) ∨
      ∃ value, p.run.CanEnd (.ok value) ∧ (f value).run.CanEnd outcome := by
  rw [run_bind] at ended
  obtain ⟨middle, first, second⟩ := ended.bind
  cases middle with
  | error e => exact .inl ⟨e, first, Program.canEnd_done_iff.1 second⟩
  | ok value => exact .inr ⟨value, first, second⟩

theorem canEnd_bind_ok {p : Collective β} {f : β → Collective α} {result : α}
    (ended : (p >>= f).run.CanEnd (.ok result)) :
    ∃ value, p.run.CanEnd (.ok value) ∧ (f value).run.CanEnd (.ok result) := by
  rcases canEnd_bind ended with ⟨_, _, ⟨⟩⟩ | parts
  exact parts

theorem canEnd_ofExcept_iff {outcome came : Except VectorError α} :
    (ofExcept outcome).run.CanEnd came ↔ came = outcome := Program.canEnd_done_iff

theorem canEnd_pure_iff {value : α} {came : Except VectorError α} :
    (pure value : Collective α).run.CanEnd came ↔ came = .ok value := Program.canEnd_done_iff

theorem Ensures.of_canEnd {p : Collective α} {good : Deliveries → α → Prop} {value : α}
    (ensured : p.Ensures good) (ended : p.run.CanEnd (.ok value)) :
    ∃ delivered, good delivered value := by
  obtain ⟨delivered, known⟩ := Program.Ensures.of_canEnd ensured ended
  exact ⟨delivered, known value rfl⟩

end Collective

/-! ## Unfit ids -/

/-- The error says of an id that no rank owns it, or that it cannot be used as a ghost. -/
inductive VectorError.BlamesId : VectorError → Prop
  | unknown (id globalSize : UInt64) : BlamesId (.invalidGlobalId id globalSize)
  | own (id : UInt64) (rank : Nat) : BlamesId (.ghostIdLocallyOwned id rank)
  | repeated (id : UInt64) : BlamesId (.duplicateGhostId id)
  | missing (id : UInt64) : BlamesId (.unknownGhostId id)

section outcomes

variable {α β : Type}

/-- If the outcome is an error, then not because of an id. -/
def BlamesNoId (outcome : Except VectorError α) : Prop :=
  ∀ e, outcome = .error e → ¬e.BlamesId

theorem blamesNoId_ok (value : α) : BlamesNoId (.ok value) := nofun

theorem BlamesNoId.of_error {e : VectorError}
    (blameless : BlamesNoId (.error e : Except VectorError α)) :
    BlamesNoId (.error e : Except VectorError β) := by
  rintro _ ⟨⟩
  exact blameless e rfl

theorem BlamesNoId.bind {first : Except VectorError β} {second : β → Except VectorError α}
    (blameless : BlamesNoId first) (later : ∀ value, BlamesNoId (second value)) :
    BlamesNoId (first >>= second) := by
  cases first with
  | error e => exact blameless.of_error
  | ok value => exact later value

theorem blamesNoId_forM {check : α → Except VectorError Unit}
    (each : ∀ item, BlamesNoId (check item)) (items : List α) : BlamesNoId (items.forM check) := by
  induction items with
  | nil => exact blamesNoId_ok ()
  | cons item rest ih => exact (each item).bind fun _ => ih

theorem blamesNoId_mapM {f : α → Except VectorError β} (each : ∀ item, BlamesNoId (f item))
    (items : List α) : BlamesNoId (items.mapM f) := by
  induction items with
  | nil => exact blamesNoId_ok []
  | cons item rest ih =>
    rw [List.mapM_cons]
    exact (each item).bind fun _ => ih.bind fun _ => blamesNoId_ok _

theorem Layout.blamesNoId_check (l : Layout) (what : String) (size length : Nat) :
    BlamesNoId (l.check what size length) := by
  unfold check
  split
  · exact nofun
  · split
    · exact nofun
    · refine blamesNoId_forM (fun (count, offset) => ?_) _
      show BlamesNoId (checkBlock what offset count length)
      unfold checkBlock
      split <;> exact nofun

theorem blamesNoId_readReceived (me : Nat) (own : IdRange) (received : RankMap Bytes) :
    BlamesNoId (readReceived me own received) := by
  refine (blamesNoId_mapM (fun (source, bytes) => ?_) _).bind fun _ => blamesNoId_ok _
  refine BlamesNoId.bind ?_ fun _ => blamesNoId_ok _
  unfold readRecords
  split
  · exact nofun
  · split <;> exact nofun

end outcomes

namespace Collective

variable {α β : Type}

/-- Over no transport does the program fail because of an id. -/
def BlamesNoId (p : Collective α) : Prop :=
  ∀ outcome, p.run.CanEnd outcome → HaloVector.BlamesNoId outcome

theorem BlamesNoId.bind {p : Collective β} {f : β → Collective α} (first : p.BlamesNoId)
    (second : ∀ value, p.run.CanEnd (.ok value) → (f value).BlamesNoId) :
    (p >>= f).BlamesNoId := by
  intro outcome ended
  rcases canEnd_bind ended with ⟨e, failed, rfl⟩ | ⟨value, came, ended⟩
  · exact (first _ failed).of_error
  · exact second value came outcome ended

theorem blamesNoId_ofExcept {outcome : Except VectorError α}
    (blameless : HaloVector.BlamesNoId outcome) : (ofExcept outcome).BlamesNoId := by
  intro came ended
  rwa [canEnd_ofExcept_iff.1 ended]

theorem blamesNoId_pure (value : α) : (pure value : Collective α).BlamesNoId :=
  blamesNoId_ofExcept nofun

/-- Without an error there is nothing to blame. -/
theorem blamesNoId_lift (p : Program α) : Collective.BlamesNoId (ExceptT.lift p) := by
  intro outcome ended
  obtain ⟨value, -, same⟩ := Program.CanEnd.bind ended
  rw [Program.canEnd_done_iff.1 same]
  exact blamesNoId_ok value

theorem blamesNoId_log (level : Level) (text : String) : (log level text).BlamesNoId :=
  blamesNoId_lift _

theorem blamesNoId_inBounds (found : Option α) : (inBounds found).BlamesNoId := by
  cases found with
  | some value => exact blamesNoId_pure value
  | none => exact blamesNoId_lift _

theorem blamesNoId_forM_log {γ : Type} (level : Level) (text : γ → String) (items : List γ) :
    (items.forM fun item => log level (text item)).BlamesNoId := by
  induction items with
  | nil => exact blamesNoId_pure ()
  | cons item rest ih => exact (blamesNoId_log level (text item)).bind fun _ _ => ih

theorem blamesNoId_ofAttempt {p : Program (Attempt β)}
    (each : ∀ attempt, p.CanEnd attempt → HaloVector.BlamesNoId attempt.outcome) :
    (ofAttempt p).BlamesNoId := by
  intro outcome ended
  obtain ⟨attempt, came, same⟩ := Program.CanEnd.bind ended
  rw [Program.canEnd_done_iff.1 same]
  have blameless := each attempt came
  cases reported : attempt.outcome with
  | error e => exact (reported ▸ blameless).of_error
  | ok => exact blamesNoId_ok _

end Collective

section exchange

variable (c : Communicator) {α : Type}

theorem blamesNoId_exchangeBytes {sent buffer : Bytes} {outgoing incoming : Layout} {tag : Tag}
    {received : Attempt Bytes}
    (ended : (exchangeBytes c sent outgoing buffer incoming tag).CanEnd received) :
    BlamesNoId received.outcome := by
  cases fitting : checkLayouts c.topology.size sent outgoing buffer incoming with
  | error refusal =>
    have blameless : BlamesNoId (checkLayouts c.topology.size sent outgoing buffer incoming) :=
      (outgoing.blamesNoId_check _ _ _).bind fun _ => incoming.blamesNoId_check _ _ _
    rw [exchangeBytes_refused c _ _ _ _ tag fitting, Program.canEnd_done_iff] at ended
    subst ended
    rw [fitting] at blameless
    exact blameless
  | ok =>
    obtain ⟨_, answers, -, rfl⟩ := (conducts_exchangeBytes c tag fitting).of_canEnd ended
    intro e failed blamed
    -- what is wrong with a part is its length, or that it did not come
    rcases tally_eq_error_iff.1 failed with ⟨_, rfl⟩ | ⟨_, peer, _, fault, _⟩
    · cases blamed
    · generalize answers.reply peer = reply at fault
      cases fault <;> cases blamed

theorem blamesNoId_exchange [Cell α] (sent : List α) (outgoing incoming : Layout) (tag : Tag) :
    (exchange c sent outgoing incoming tag).BlamesNoId :=
  (Collective.blamesNoId_ofAttempt fun _ => blamesNoId_exchangeBytes c).bind fun _ _ =>
    Collective.blamesNoId_pure _

theorem blamesNoId_exchangeCounts (counts : List Nat) (tag : Tag) :
    (exchangeCounts c counts tag).BlamesNoId := by
  unfold exchangeCounts
  split
  · exact Collective.blamesNoId_ofExcept nofun
  · exact (blamesNoId_exchange c _ _ _ _).bind fun _ _ => Collective.blamesNoId_pure _

theorem blamesNoId_exchangeByRank [Cell α] (lists : RankMap (List α)) (tags : ExchangeTags) :
    (exchangeByRank c lists tags).BlamesNoId := by
  have members : BlamesNoId (lists.keys.forM c.topology.checkRank) := by
    refine blamesNoId_forM (fun rank => ?_) _
    unfold Topology.checkRank
    split <;> exact nofun
  refine (Collective.blamesNoId_ofExcept members).bind fun _ _ => ?_
  refine (blamesNoId_exchangeCounts c _ _).bind fun _ _ => ?_
  refine (blamesNoId_exchange c _ _ _ _).bind fun _ _ => ?_
  exact (Collective.blamesNoId_log _ _).bind fun _ _ => Collective.blamesNoId_pure _

theorem blamesNoId_gather [Cell α] (value : α) : (gather c value).BlamesNoId :=
  (Collective.blamesNoId_ofAttempt fun _ => blamesNoId_exchangeBytes c).bind fun _ _ =>
    Collective.blamesNoId_pure _

theorem blamesNoId_agreeOnMode (mode : QueueMode) : (agreeOnMode c mode).BlamesNoId := by
  refine (blamesNoId_gather c _).bind fun codes _ => Collective.blamesNoId_ofExcept ?_
  unfold groupMode
  dsimp only
  split <;> exact nofun

/-- Others learn which ranks have failed, but not why. -/
theorem blamesNoId_agreeOnOutcome {outcome : Except VectorError α} (blameless : BlamesNoId outcome)
    (operation : String) : (agreeOnOutcome c outcome operation).BlamesNoId := by
  refine (blamesNoId_gather c _).bind fun statuses _ => ?_
  cases outcome with
  | error e => exact Collective.blamesNoId_ofExcept blameless
  | ok value =>
    dsimp only
    split
    · exact Collective.blamesNoId_pure value
    · exact (Collective.blamesNoId_log _ _).bind fun _ _ => Collective.blamesNoId_ofExcept nofun

/-- In an assembly only the search for owners could fail because of an id. -/
theorem blamesNoId_assembleDrained {extents : Extents} {drained : Drained}
    (known : ∀ update ∈ drained.updates, update.id < extents.globalSize)
    (values : List Scalar) (tags : AssemblyTags) :
    (assembleDrained c extents values drained tags).BlamesNoId := by
  have ranged : BlamesNoId (extents.range c.rank) := by
    unfold Extents.range
    split <;> exact nofun
  refine (Collective.blamesNoId_ofExcept ranged).bind fun own _ => ?_
  refine (blamesNoId_agreeOnMode c _).bind fun mode _ => ?_
  dsimp only
  split
  · exact Collective.blamesNoId_pure values
  have sorted : BlamesNoId (updatesByOwner extents drained.updates) := by
    rw [updatesByOwner_eq known]
    exact nofun
  refine (Collective.blamesNoId_ofExcept sorted).bind fun byOwner _ => ?_
  refine (blamesNoId_exchangeByRank c _ _).bind fun received _ => ?_
  have checked : BlamesNoId (do
      checkRoom values.length own.length
      readReceived c.rank own received) := by
    refine BlamesNoId.bind ?_ fun _ => blamesNoId_readReceived _ _ _
    unfold checkRoom
    split <;> exact nofun
  refine (blamesNoId_agreeOnOutcome c checked _).bind fun incoming _ => ?_
  refine (Collective.blamesNoId_inBounds _).bind fun applied _ => ?_
  refine (Collective.blamesNoId_forM_log _ _ _).bind fun _ _ => ?_
  exact (Collective.blamesNoId_log _ _).bind fun _ _ => Collective.blamesNoId_pure applied

end exchange

/-! ## Unknown ids -/

section outcomes

variable {α β : Type}

/-- The outcome is not the error for an id that no rank owns. -/
def NamesNoId (outcome : Except VectorError α) : Prop :=
  ∀ id limit, outcome ≠ .error (.invalidGlobalId id limit)

theorem namesNoId_ok (value : α) : NamesNoId (.ok value) := nofun

theorem NamesNoId.of_error {e : VectorError} (named : NamesNoId (.error e : Except VectorError α)) :
    NamesNoId (.error e : Except VectorError β) := by
  rintro id limit ⟨⟩
  exact named id limit rfl

theorem BlamesNoId.namesNoId {outcome : Except VectorError α} (blameless : BlamesNoId outcome) :
    NamesNoId outcome :=
  fun id limit failed => blameless _ failed (.unknown id limit)

end outcomes

end HaloVector
