import HaloVector.Proofs.GroupAssembly
import HaloVector.Proofs.Histories
import HaloVector.Proofs.Transcripts
import HaloVector.Shard.Arithmetic

/-!
# A rank on its own

The only rank of a group has nobody to write to and nobody to wait for. What it would send to
itself it keeps, so it gets along without any transport, and what it does is the same with one as
without.

* `Program.Silent` are the programs that use no transport, and `Program.Silent.exists_saying` says
  what there is to them: their log lines and their ending.
* `silent_exchangeBytes` is where messages would come from. All other services are made of this
  one, and are silent for the same reason (`Service.silent_program`).
* `Client` is any finite use of the services, `Seat` what each call of it is given for a
  communicator.
* `Client.serial_is_group_of_one`: it makes no difference which one that is.
-/

namespace HaloVector

/-! ## Silent programs -/

namespace Program

variable {α β σ : Type}

/-- The program does nothing but write log lines until it ends. -/
inductive Silent : Program α → Prop
  | done (value : α) : Silent (.done value)
  | halt (why : Halt) : Silent (.halt why)
  | log (level : Level) (text : String) {next : Program α} (rest : Silent next) :
    Silent (.log level text next)

theorem Silent.bind {p : Program β} {f : β → Program α} (first : p.Silent)
    (second : ∀ value, (f value).Silent) : (p.bind f).Silent := by
  induction first with
  | done value => exact second value
  | halt why => exact .halt why
  | log level text rest ih => exact .log level text ih

/-- The program that has ended. -/
def ended : Ending α → Program α
  | .finished value => done value
  | .halted why => halt why

/-- The program that writes these lines and then ends. -/
def saying (lines : List (Level × String)) (ending : Ending α) : Program α :=
  lines.foldr (fun (level, text) next => log level text next) (ended ending)

theorem Silent.exists_saying {p : Program α} (silent : p.Silent) :
    ∃ lines ending, p = saying lines ending := by
  induction silent with
  | done value => exact ⟨[], .finished value, rfl⟩
  | halt why => exact ⟨[], .halted why, rfl⟩
  | log level text rest ih =>
    obtain ⟨lines, ending, rfl⟩ := ih
    exact ⟨(level, text) :: lines, ending, rfl⟩

/-! ## What is said -/

/-- The log line as something that happened. -/
def Event.ofLine (line : Level × String) : Event := .logged line.1 line.2

variable (lines : List (Level × String)) (ending : Ending α)

theorem recordedAfter_saying (past : List Event) :
    (saying lines ending).recordedAfter past =
      .done (ending, past.reverse ++ lines.map Event.ofLine) := by
  induction lines generalizing past with
  | nil =>
    rw [List.map_nil, List.append_nil]
    cases ending <;> rfl
  | cons line rest ih =>
    refine (ih (.ofLine line :: past)).trans ?_
    rw [List.reverse_cons, List.append_assoc]
    rfl

theorem recorded_saying :
    (saying lines ending).recorded = .done (ending, lines.map Event.ofLine) :=
  recordedAfter_saying lines ending []

theorem offline_saying : (saying lines ending).offline = saying lines ending := by
  induction lines with
  | nil => cases ending <;> rfl
  | cons line rest ih => exact congrArg (log line.1 line.2) ih

theorem runOver_saying (t : Transport σ) (s : σ) :
    (saying lines ending).runOver t s = (ending, []) := by
  induction lines with
  | nil => cases ending <;> rfl
  | cons line rest ih => exact ih

theorem usesOver_saying (t : Transport σ) (s : σ) : (saying lines ending).usesOver t s = [] := by
  induction lines with
  | nil => cases ending <;> rfl
  | cons line rest ih => exact ih

end Program

/-! ## A group of one -/

namespace Observed

variable {α : Type}

theorem isStuck_ended (ending : Program.Ending α) :
    (Group.ofPrograms [Program.ended ending]).IsStuck
  | 0 => by cases ending <;> rfl
  | _ + 1 => rfl

theorem after?_saying (lines : List (Level × String)) (ending : Program.Ending α)
    (histories : Nat → List Program.Event) :
    after? ⟨.ofPrograms [.saying lines ending], histories⟩ (List.replicate lines.length 0) =
      some ⟨.ofPrograms [.ended ending],
        Function.update histories 0 (histories 0 ++ lines.map .ofLine)⟩ := by
  induction lines generalizing histories with
  | nil =>
    rw [List.map_nil, List.append_nil, Function.update_eq_self]
    rfl
  | cons line rest ih =>
    have advanced : advance? ⟨.ofPrograms [.saying (line :: rest) ending], histories⟩ 0 =
        some ⟨.ofPrograms [.saying rest ending],
          Function.update histories 0 (histories 0 ++ [.ofLine line])⟩ := rfl
    rw [List.length_cons, List.replicate_succ, after?_cons, advanced, Option.bind_some, ih,
      Function.update_self, Function.update_idem, List.append_assoc]
    rfl

/-- Whoever only writes log lines comes to the end of them in any schedule. -/
theorem eq_of_saying {lines : List (Level × String)} {ending : Program.Ending α}
    {schedule : List Nat} {last : Observed α}
    (ran : (start [Program.saying lines ending]).after? schedule = some last)
    (stuck : last.group.IsStuck) :
    last = ⟨.ofPrograms [.ended ending], Function.update (fun _ => []) 0 (lines.map .ofLine)⟩ :=
  (schedules_agree [Program.saying lines ending]).1 _ _ _ _ ran stuck
    (after?_saying lines ending fun _ => []) (isStuck_ended ending)

end Observed

/-! ## Silence without peers -/

namespace Collective

variable {α β : Type}

/-- The program is silent, whether it fails or not. -/
def Silent (p : Collective α) : Prop := Program.Silent p.run

theorem Silent.bind {p : Collective β} {f : β → Collective α} (first : p.Silent)
    (second : ∀ value, (f value).Silent) : (p >>= f).Silent := by
  rw [Silent, run_bind]
  refine Program.Silent.bind first fun outcome => ?_
  cases outcome with
  | error e => exact .done _
  | ok value => exact second value

theorem silent_ofExcept (outcome : Except VectorError α) : (ofExcept outcome).Silent := .done _

theorem silent_pure (value : α) : (pure value : Collective α).Silent := .done _

theorem silent_lift {p : Program α} (silent : p.Silent) :
    Collective.Silent (ExceptT.lift p) := silent.bind fun _ => .done _

theorem silent_log (level : Level) (text : String) : (log level text).Silent :=
  silent_lift (.log level text (.done ()))

theorem silent_inBounds (found : Option α) : (inBounds found).Silent := by
  cases found with
  | some value => exact silent_pure value
  | none => exact silent_lift (.halt _)

theorem silent_forM_log {γ : Type} (level : Level) (text : γ → String) (items : List γ) :
    (items.forM fun item => log level (text item)).Silent := by
  induction items with
  | nil => exact silent_pure ()
  | cons item rest ih => exact (silent_log level (text item)).bind fun _ => ih

theorem silent_ofAttempt {p : Program (Attempt β)} (silent : p.Silent) :
    (ofAttempt p).Silent := silent.bind fun _ => .done _

end Collective

section services

variable {c : Communicator} (alone : c.topology.peers = []) {α : Type}

include alone

/-- There is nobody to post a receive for, to send to or to wait for. -/
theorem silent_exchangeBytes (sent : Bytes) (outgoing : Layout) (buffer : Bytes)
    (incoming : Layout) (tag : Tag) :
    (exchangeBytes c sent outgoing buffer incoming tag).Silent := by
  unfold exchangeBytes
  dsimp only
  split
  · exact .done _
  · rw [alone]
    exact .done _

theorem silent_allgather (contribution buffer : Bytes) :
    (allgather c contribution buffer).Silent := silent_exchangeBytes alone _ _ _ _ _

variable [Cell α]

theorem silent_exchange (sent : List α) (outgoing incoming : Layout) (tag : Tag) :
    (exchange c sent outgoing incoming tag).Silent :=
  (Collective.silent_ofAttempt (silent_exchangeBytes alone _ _ _ _ _)).bind fun _ =>
    Collective.silent_pure _

omit [Cell α] in
theorem silent_exchangeCounts (counts : List Nat) (tag : Tag) :
    (exchangeCounts c counts tag).Silent := by
  unfold exchangeCounts
  split
  · exact Collective.silent_ofExcept _
  · exact (silent_exchange alone _ _ _ _).bind fun _ => Collective.silent_pure _

theorem silent_exchangeByRank (lists : RankMap (List α)) (tags : ExchangeTags) :
    (exchangeByRank c lists tags).Silent := by
  refine (Collective.silent_ofExcept _).bind fun _ => ?_
  refine (silent_exchangeCounts alone _ _).bind fun _ => ?_
  refine (silent_exchange alone _ _ _ _).bind fun _ => ?_
  exact (Collective.silent_log _ _).bind fun _ => Collective.silent_pure _

theorem silent_gather (value : α) : (gather c value).Silent :=
  (Collective.silent_ofAttempt (silent_allgather alone _ _)).bind fun _ =>
    Collective.silent_pure _

omit [Cell α]

theorem silent_barrier : (barrier c).Silent :=
  (Collective.silent_ofAttempt (silent_allgather alone _ _)).bind fun _ =>
    Collective.silent_pure _

theorem silent_reduce (value : Scalar) (how : Reduction) : (reduce c value how).Silent :=
  (silent_gather alone _).bind fun _ => Collective.silent_pure _

theorem silent_agreeOnOutcome (outcome : Except VectorError α) (operation : String) :
    (agreeOnOutcome c outcome operation).Silent := by
  refine (silent_gather alone _).bind fun statuses => ?_
  cases outcome with
  | error e => exact Collective.silent_ofExcept _
  | ok value =>
    dsimp only
    split
    · exact Collective.silent_pure value
    · exact (Collective.silent_log _ _).bind fun _ => Collective.silent_ofExcept _

theorem silent_agreeOnMode (mode : QueueMode) : (agreeOnMode c mode).Silent :=
  (silent_gather alone _).bind fun _ => Collective.silent_ofExcept _

theorem silent_buildExtents (localSize : UInt64) : (Extents.build c localSize).Silent := by
  refine (silent_gather alone _).bind fun _ => ?_
  refine (Collective.silent_ofExcept _).bind fun _ => ?_
  exact (Collective.silent_log _ _).bind fun _ => Collective.silent_pure _

theorem silent_buildDeclared (localSize globalSize : UInt64) (operation : String) :
    (Extents.buildDeclared c localSize globalSize operation).Silent := by
  refine (silent_buildExtents alone _).bind fun _ => ?_
  exact (silent_agreeOnOutcome alone _ _).bind fun _ => Collective.silent_pure _

theorem silent_assembleDrained (extents : Extents) (values : List Scalar) (drained : Drained)
    (tags : AssemblyTags) : (assembleDrained c extents values drained tags).Silent := by
  refine (Collective.silent_ofExcept _).bind fun own => ?_
  refine (silent_agreeOnMode alone _).bind fun mode => ?_
  dsimp only
  split
  · exact Collective.silent_pure values
  refine (Collective.silent_ofExcept _).bind fun byOwner => ?_
  refine (silent_exchangeByRank alone _ _).bind fun received => ?_
  refine (silent_agreeOnOutcome alone _ _).bind fun incoming => ?_
  refine (Collective.silent_inBounds _).bind fun applied => ?_
  refine (Collective.silent_forM_log _ _ _).bind fun _ => ?_
  exact (Collective.silent_log _ _).bind fun _ => Collective.silent_pure applied

theorem silent_assemble (extents : Extents) (values : List Scalar) (queue : OpQueue)
    (tags : AssemblyTags) : (assemble c extents values queue tags).Silent := by
  refine Program.Silent.bind (silent_assembleDrained alone _ _ _ _) fun outcome => ?_
  cases outcome <;> exact .done _

theorem silent_assembleShard (s : Shard) : (s.assemble c).Silent := by
  unfold Shard.assemble
  split
  · exact .done _
  · exact (silent_assemble alone _ _ _ _).bind fun _ => .done _

theorem silent_buildPlan (extents : Extents) (ids : List UInt64) (tags : ExchangeTags) :
    (Plan.build c extents ids tags).Silent := by
  refine (silent_agreeOnOutcome alone _ _).bind fun (own, wanted) => ?_
  refine (silent_exchangeByRank alone _ _).bind fun requests => ?_
  refine (silent_agreeOnOutcome alone _ _).bind fun places => ?_
  refine (Collective.silent_lift ?_).bind fun _ => ?_
  · unfold Plan.assertValid
    split
    · exact .done ()
    · exact .halt _
  · exact (Collective.silent_log _ _).bind fun _ => Collective.silent_pure _

theorem silent_haloOfExtents (extents : Extents) (ids : List UInt64) (tags : HaloTags) :
    (Halo.ofExtents c extents ids tags).Silent := by
  refine (silent_agreeOnOutcome alone _ _).bind fun _ => ?_
  refine (silent_buildPlan alone _ _ _).bind fun _ => ?_
  exact (Collective.silent_ofExcept _).bind fun _ => Collective.silent_pure _

theorem silent_createHalo (localSize globalSize : UInt64) (ids : List UInt64)
    (tags : HaloTags) : (Halo.create c localSize globalSize ids tags).Silent :=
  (silent_buildDeclared alone _ _ _).bind fun _ => silent_haloOfExtents alone _ _ _

theorem silent_fetch [Cell α] (h : Halo) (owned : List α) : (h.fetch c owned).Silent := by
  refine (Collective.silent_inBounds _).bind fun _ => ?_
  refine (silent_exchange alone _ _ _ _).bind fun _ => ?_
  refine (Collective.silent_inBounds _).bind fun _ => ?_
  exact (Collective.silent_log _ _).bind fun _ => Collective.silent_pure _

theorem silent_refresh [Cell α] (h : Halo) (owned ghosts : List α) :
    (h.refresh c owned ghosts).Silent := by
  refine (Collective.silent_ofExcept _).bind fun _ => ?_
  exact (silent_agreeOnOutcome alone _ _).bind fun _ => silent_fetch alone _ _

theorem silent_refreshBuffer [Cell α] (h : Halo) (buffer : List α) :
    (h.refreshBuffer c buffer).Silent := by
  refine (Collective.silent_ofExcept _).bind fun _ => ?_
  refine (silent_agreeOnOutcome alone _ _).bind fun _ => ?_
  exact (silent_fetch alone _ _).bind fun _ => Collective.silent_pure _

theorem silent_createShard (localSize globalSize : UInt64) (tags : VectorTags) :
    (Shard.create c localSize globalSize tags).Silent :=
  (silent_buildDeclared alone _ _ _).bind fun _ => Collective.silent_ofExcept _

theorem silent_createGhosted (localSize globalSize : UInt64) (ids : List UInt64)
    (tags : VectorTags) : (GhostedShard.create c localSize globalSize ids tags).Silent :=
  (silent_createHalo alone _ _ _ _).bind fun _ => Collective.silent_pure _

theorem silent_updateGhosts (part : VectorPart) :
    (DistributedVector.updateGhosts part c).Silent := by
  cases part with
  | plain s =>
    show Collective.Silent (VectorPart.plain <$> DistributedVector.updateGhosts s c)
    rw [map_eq_pure_bind]
    refine Collective.Silent.bind ?_ fun _ => Collective.silent_pure _
    exact (Collective.silent_ofExcept _).bind fun _ => Collective.silent_pure _
  | ghosted v =>
    show Collective.Silent (VectorPart.ghosted <$> v.refresh c)
    rw [map_eq_pure_bind]
    refine Collective.Silent.bind ?_ fun _ => Collective.silent_pure _
    refine (Collective.silent_ofExcept _).bind fun _ => ?_
    exact (silent_refreshBuffer alone _ _).bind fun _ => Collective.silent_pure _

theorem silent_norm (s : Shard) (which : Norm) : (s.norm c which).Silent := by
  refine (Collective.silent_ofExcept _).bind fun _ => ?_
  cases which with
  | l1 | lInf => exact silent_reduce alone _ _
  | l2 => exact (silent_reduce alone _ _).bind fun _ => Collective.silent_pure _

end services

/-! ## Services -/

/-- What can be asked of a communicator, by what it answers with. Aborts are left out, for they do
differ: a rank without a group has only its own process to end. -/
inductive Service : Type → Type 1
  | exchangeBytes (sent : Bytes) (outgoing : Layout) (buffer : Bytes) (incoming : Layout)
    (tag : Tag) : Service (Attempt Bytes)
  | exchange {α : Type} [Cell α] (sent : List α) (outgoing incoming : Layout) (tag : Tag) :
    Service (Except VectorError (List α))
  | exchangeCounts (counts : List Nat) (tag : Tag) : Service (Except VectorError (List Nat))
  | exchangeByRank {α : Type} [Cell α] (lists : RankMap (List α)) (tags : ExchangeTags) :
    Service (Except VectorError (RankMap (List α)))
  | allgather (contribution buffer : Bytes) : Service (Attempt Bytes)
  | gather {α : Type} [Cell α] (value : α) : Service (Except VectorError (List α))
  | reduce (value : Scalar) (how : Reduction) : Service (Except VectorError Scalar)
  | barrier : Service (Except VectorError Unit)
  | agreeOnOutcome {α : Type} (outcome : Except VectorError α) (operation : String) :
    Service (Except VectorError α)
  | agreeOnMode (mode : QueueMode) : Service (Except VectorError QueueMode)
  | buildExtents (localSize : UInt64) : Service (Except VectorError Extents)
  | buildPlan (extents : Extents) (ids : List UInt64) (tags : ExchangeTags) :
    Service (Except VectorError Plan)
  | haloOver (extents : Extents) (ids : List UInt64) (tags : HaloTags) :
    Service (Except VectorError Halo)
  | makeHalo (localSize globalSize : UInt64) (ids : List UInt64) (tags : HaloTags) :
    Service (Except VectorError Halo)
  | shardOver (extents : Extents) (tags : VectorTags) : Service (Except VectorError Shard)
  | makeShard (localSize globalSize : UInt64) (tags : VectorTags) :
    Service (Except VectorError Shard)
  | makeGhosted (localSize globalSize : UInt64) (ids : List UInt64) (tags : VectorTags) :
    Service (Except VectorError GhostedShard)
  | assemble (extents : Extents) (values : List Scalar) (queue : OpQueue) (tags : AssemblyTags) :
    Service (Attempt Assembled)
  | assembleQueued (part : VectorPart) : Service (Attempt VectorPart)
  | refresh {α : Type} [Cell α] (halo : Halo) (owned ghosts : List α) :
    Service (Except VectorError (List α))
  | refreshBuffer {α : Type} [Cell α] (halo : Halo) (buffer : List α) :
    Service (Except VectorError (List α))
  | updateGhosts (part : VectorPart) : Service (Except VectorError VectorPart)
  | norm (s : Shard) (which : Norm) : Service (Except VectorError Scalar)

namespace Service

/-- What a rank does for a service. -/
def program (c : Communicator) {β : Type} : Service β → Program β
  | exchangeBytes sent outgoing buffer incoming tag =>
    HaloVector.exchangeBytes c sent outgoing buffer incoming tag
  | exchange sent outgoing incoming tag => (HaloVector.exchange c sent outgoing incoming tag).run
  | exchangeCounts counts tag => (HaloVector.exchangeCounts c counts tag).run
  | exchangeByRank lists tags => (HaloVector.exchangeByRank c lists tags).run
  | allgather contribution buffer => HaloVector.allgather c contribution buffer
  | gather value => (HaloVector.gather c value).run
  | reduce value how => (HaloVector.reduce c value how).run
  | barrier => (HaloVector.barrier c).run
  | agreeOnOutcome outcome operation => (HaloVector.agreeOnOutcome c outcome operation).run
  | agreeOnMode mode => (HaloVector.agreeOnMode c mode).run
  | buildExtents localSize => (Extents.build c localSize).run
  | buildPlan extents ids tags => (Plan.build c extents ids tags).run
  | haloOver extents ids tags => (Halo.ofExtents c extents ids tags).run
  | makeHalo localSize globalSize ids tags => (Halo.create c localSize globalSize ids tags).run
  | shardOver extents tags => pure (Shard.ofExtents c extents tags)
  | makeShard localSize globalSize tags => (Shard.create c localSize globalSize tags).run
  | makeGhosted localSize globalSize ids tags =>
    (GhostedShard.create c localSize globalSize ids tags).run
  | assemble extents values queue tags => HaloVector.assemble c extents values queue tags
  | assembleQueued part => DistributedVector.assembleQueued part c
  | refresh halo owned ghosts => (halo.refresh c owned ghosts).run
  | refreshBuffer halo buffer => (halo.refreshBuffer c buffer).run
  | updateGhosts part => (DistributedVector.updateGhosts part c).run
  | norm s which => (s.norm c which).run

variable {β : Type}

theorem silent_program {c : Communicator} (alone : c.topology.peers = []) (service : Service β) :
    (service.program c).Silent := by
  cases service with
  | exchangeBytes => exact silent_exchangeBytes alone _ _ _ _ _
  | exchange => exact silent_exchange alone _ _ _ _
  | exchangeCounts => exact silent_exchangeCounts alone _ _
  | exchangeByRank => exact silent_exchangeByRank alone _ _
  | allgather => exact silent_allgather alone _ _
  | gather => exact silent_gather alone _
  | reduce => exact silent_reduce alone _ _
  | barrier => exact silent_barrier alone
  | agreeOnOutcome => exact silent_agreeOnOutcome alone _ _
  | agreeOnMode => exact silent_agreeOnMode alone _
  | buildExtents => exact silent_buildExtents alone _
  | buildPlan => exact silent_buildPlan alone _ _ _
  | haloOver => exact silent_haloOfExtents alone _ _ _
  | makeHalo => exact silent_createHalo alone _ _ _ _
  | shardOver => exact .done _
  | makeShard => exact silent_createShard alone _ _ _
  | makeGhosted => exact silent_createGhosted alone _ _ _ _
  | assemble => exact silent_assemble alone _ _ _ _
  | assembleQueued => exact (silent_assembleShard alone _).bind fun _ => .done _
  | refresh => exact silent_refresh alone _ _ _
  | refreshBuffer => exact silent_refreshBuffer alone _ _
  | updateGhosts => exact silent_updateGhosts alone _
  | norm => exact silent_norm alone _ _

end Service

/-! ## Clients -/

/-- A communicator of somebody who is alone. -/
inductive Seat
  /-- There is no group, and no transport. -/
  | serial
  /-- It is the only member of its group. -/
  | member
deriving DecidableEq, Repr

def Seat.communicator : Seat → Communicator
  | serial => .single
  | member => .member 0 1

theorem Seat.alone (seat : Seat) : seat.communicator.topology.peers = [] := by
  cases seat <;> rfl

/-- What a service does depends on the rank and the size of the group, and on nothing else that a
communicator says. -/
theorem Service.program_eq {β : Type} (service : Service β) (seat other : Seat) :
    service.program seat.communicator = service.program other.communicator := by
  cases seat <;> cases other <;> cases service <;> rfl

/-- Whoever asks for services, one after the other. What is asked for next may depend on all
answers so far, and so may the last value. -/
inductive Client (α : Type) : Type 1
  | done (value : α)
  | ask {β : Type} (service : Service β) (next : β → Client α)

namespace Client

variable {α : Type}

/-- What a client does if these are the communicators that it uses, call by call. -/
def run (seats : Nat → Seat) : Client α → Program α
  | done value => pure value
  | ask service next => do
    let answer ← service.program (seats 0).communicator
    (next answer).run fun call => seats (call + 1)

theorem silent_run (client : Client α) (seats : Nat → Seat) : (client.run seats).Silent := by
  induction client generalizing seats with
  | done value => exact .done value
  | ask service next ih =>
    exact (service.silent_program (seats 0).alone).bind fun answer => ih answer _

theorem run_eq (client : Client α) (seats others : Nat → Seat) :
    client.run seats = client.run others := by
  induction client generalizing seats others with
  | done value => rfl
  | ask service next ih =>
    rw [run, run, service.program_eq (seats 0) (others 0)]
    exact congrArg _ (funext fun answer => ih answer _ _)

/-- A client that is alone does the same with and without a group, even if it takes turns: it
writes the same lines and ends in the same way. Nothing is posted, sent or awaited. So nothing
changes if it is cut off from all transport, over any transport it comes to its end, and in a
group of one no schedule leaves it waiting. -/
theorem serial_is_group_of_one (client : Client α) :
    (∀ seats others, client.run seats = client.run others) ∧
    ∃ (lines : List (Level × String)) (ending : Program.Ending α), ∀ seats,
      (client.run seats).recorded = .done (ending, lines.map .ofLine) ∧
      (client.run seats).offline = client.run seats ∧
      (∀ {σ : Type} (t : Transport σ) (s : σ),
        (client.run seats).runOver t s = (ending, []) ∧
          (client.run seats).usesOver t s = []) ∧
      ∀ schedule last, (Observed.start [client.run seats]).after? schedule = some last →
        last.group.IsStuck →
        last = ⟨.ofPrograms [.ended ending],
          Function.update (fun _ => []) 0 (lines.map .ofLine)⟩ := by
  refine ⟨client.run_eq, ?_⟩
  obtain ⟨lines, ending, said⟩ := (client.silent_run fun _ => .serial).exists_saying
  refine ⟨lines, ending, fun seats => ?_⟩
  rw [client.run_eq seats fun _ => .serial, said]
  exact ⟨Program.recorded_saying lines ending, Program.offline_saying lines ending,
    fun t s => ⟨Program.runOver_saying lines ending t s, Program.usesOver_saying lines ending t s⟩,
    fun _ _ => Observed.eq_of_saying⟩

/-- Makes a vector with three entries, and measures it. -/
def measuring : Client (Except VectorError Scalar) :=
  .ask (.makeShard 3 3 default) fun
    | .error e => .done (.error e)
    | .ok s => .ask (.norm s .lInf) .done

/-- The vector is made by the member of a group and measured by nobody's member. -/
theorem serial_is_group_of_one_measuring :
    let seats (call : Nat) : Seat := if call = 0 then .member else .serial
    measuring.run seats = measuring.run (fun _ => .serial) ∧
      (measuring.run seats).offline = measuring.run seats ∧
      (∃ lines : List (Level × String), (measuring.run seats).recorded =
        .done (.finished (.ok .zero), lines.map .ofLine)) ∧
      ∃ schedule last, (Observed.start [measuring.run seats]).after? schedule = some last ∧
        last.group.IsStuck ∧ last.group = .ofPrograms [.done (.ok .zero)] := by
  intro seats
  obtain ⟨same, lines, ending, alike⟩ := measuring.serial_is_group_of_one
  obtain ⟨recorded, offline, uses, stuck⟩ := alike seats
  have ended : ((measuring.run seats).runOver Script.transport (.ofReplies [])).1 =
      .finished (.ok .zero) := by decide +kernel
  rw [(uses Script.transport (.ofReplies [])).1] at ended
  subst ended
  obtain ⟨schedule, last, ran, held⟩ := (Observed.start [measuring.run seats]).exists_last
  exact ⟨same _ _, offline, ⟨lines, recorded⟩, schedule, last, ran, held,
    congrArg Observed.group (stuck schedule last ran held)⟩

end Client

end HaloVector
