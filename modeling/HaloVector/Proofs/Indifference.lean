import HaloVector.Proofs.Verdicts

/-!
# Indifference to ghosts

A program that uses a vector only as a distributed one cannot tell whether the vector has ghosts.
Where it refreshes them, the ranks of a vector with ghosts talk to each other, and those of a
vector without do not. But what the program sees after each step is the same, so one program
can be run with either.

* `VectorStep` are the steps of such a program, `Reaction` is what comes of one of them, and
  `Observation` is what can be seen of it.
* `GhostedShard.plain` forgets the ghosts. `VectorStep.alone_plain` and
  `GhostedShard.settles_steps_joint` say for each kind of step that it commutes with forgetting.
* `observed_alike` puts this together for whole programs of a group.
-/

namespace HaloVector

/-! ## Steps -/

/-- What a program can do with a distributed vector, apart from reading. -/
inductive VectorStep
  | queueSet (id : UInt64) (value : Scalar)
  | queueAdd (id : UInt64) (value : Scalar)
  | write (index : Nat) (value : Scalar)
  | assemble (c : Communicator)
  | updateGhosts (c : Communicator)

instance : Inhabited VectorStep := ⟨.write 0 .zero⟩

/-- What a step leaves behind. A write has no outcome where there is no entry. -/
structure Reaction (V : Type) where
  after : V
  outcome? : Option (Except VectorError Unit)

namespace Reaction

variable {V W : Type}

def ofAttempt (attempt : Attempt V) : Reaction V := ⟨attempt.state, some attempt.outcome⟩

/-- Stays with a vector unless there is a changed one. -/
def ofWrite (v : V) : Option V → Reaction V
  | some changed => ⟨changed, some (.ok ())⟩
  | none => ⟨v, none⟩

def map (f : V → W) (reaction : Reaction V) : Reaction W := ⟨f reaction.after, reaction.outcome?⟩

end Reaction

/-- What can be seen of a step, and of the vector after it. -/
structure Observation where
  outcome? : Option (Except VectorError Unit)
  values : List Scalar
  numPending : Nat
  mode : QueueMode

namespace DistributedVector

variable {V : Type} [DistributedVector V]

/-- What a step comes to. -/
def react (v : V) : VectorStep → Program (Reaction V)
  | .queueSet id value => pure (.ofAttempt (queueSet v id value))
  | .queueAdd id value => pure (.ofAttempt (queueAdd v id value))
  | .write index value => pure (.ofWrite v (setLocal? v index value))
  | .assemble c => do pure (.ofAttempt (← assembleQueued v c))
  | .updateGhosts c => do pure (.ofAttempt (.orElse v (← (updateGhosts v c).run)))

/-- Takes the steps one after the other, whatever becomes of them. -/
def reactAll (v : V) : List VectorStep → Program (List (Reaction V))
  | [] => pure []
  | step :: rest => do
    let reaction ← react v step
    let later ← reactAll reaction.after rest
    pure (reaction :: later)

def observation (reaction : Reaction V) : Observation where
  outcome? := reaction.outcome?
  values := localValues reaction.after
  numPending := (shard reaction.after).numPending
  mode := (shard reaction.after).mode

/-- Sets all owned entries, takes the steps, and tells what is seen after each. -/
def observe (v : V) (values : List Scalar) (steps : List VectorStep) :
    Collective (List Observation) := do
  let filled ← Collective.ofExcept ((shard v).setValues values)
  let reactions ← ExceptT.lift (reactAll (withShard v filled) steps)
  pure (reactions.map observation)

/-- What has become of a vector. -/
def afterAll (v : V) (past : List (Reaction V)) : V :=
  past.foldl (fun _ reaction => reaction.after) v

theorem reactAll_append (v : V) (steps more : List VectorStep) :
    reactAll v (steps ++ more) = (reactAll v steps).bind fun past =>
      (reactAll (afterAll v past) more).bind fun later => .done (past ++ later) := by
  induction steps generalizing v with
  | nil => exact (Program.bind_done _).symm
  | cons step rest ih =>
    show (react v step).bind _ = ((react v step).bind _).bind _
    rw [Program.bind_assoc]
    congr 1
    funext reaction
    show (reactAll reaction.after (rest ++ more)).bind _ =
      ((reactAll reaction.after rest).bind _).bind _
    rw [ih, Program.bind_assoc, Program.bind_assoc]
    congr 1
    funext past
    show Program.bind (Program.bind _ _) _ = Program.bind _ _
    rw [Program.bind_assoc]
    rfl

theorem observe_eq {v : V} {values : List Scalar} (whole : values.length = (shard v).localSize)
    (steps : List VectorStep) :
    (observe v values steps).run =
      (reactAll (withShard v { shard v with values }) steps).bind fun past =>
        .done (.ok (past.map observation)) := by
  unfold observe Shard.setValues
  rw [if_pos whole]
  exact Program.bind_assoc ..

/-- First every rank takes steps of its own, then one with the others. -/
theorem settles_reactAll_append {size : Nat} {v : Nat → V} {before rest : Nat → List VectorStep}
    {step : Nat → VectorStep} {pasts later : Nat → List (Reaction V)}
    {reactions : Nat → Reaction V}
    (begun : ∀ rank < size, (reactAll (v rank) (before rank)).Computes (pasts rank))
    (met : Group.Settles size (fun rank => react (afterAll (v rank) (pasts rank)) (step rank))
      reactions)
    (ran : Group.Settles size (fun rank => reactAll (reactions rank).after (rest rank)) later) :
    Group.Settles size (fun rank => reactAll (v rank) (before rank ++ step rank :: rest rank))
      fun rank => pasts rank ++ reactions rank :: later rank := by
  have onward : Group.Settles size
      (fun rank => reactAll (afterAll (v rank) (pasts rank)) (step rank :: rest rank))
      fun rank => reactions rank :: later rank :=
    met.bind (ran.map fun rank later => reactions rank :: later)
  exact .of_eq (fun rank _ => reactAll_append (v rank) _ _)
    (Group.Settles.bind (.of_computes begun) (onward.map fun rank later => pasts rank ++ later))

/-- All vectors of a group assemble together, with ghosts or without. -/
theorem settles_react_assemble {size : Nat} {tags : AssemblyTags} {v : Nat → V}
    (topology : ∀ rank < size, (shard (v rank)).topology = ⟨rank, size⟩)
    (sameTags : ∀ rank < size, (shard (v rank)).tags.assembly = tags)
    (ready : Group.Ready size (fun rank => (shard (v rank)).extents)
      (fun rank => (shard (v rank)).values) fun rank => (shard (v rank)).queue.drained) :
    Group.Settles size (fun rank => react (v rank) (.assemble (.member rank size))) fun rank =>
      .ofAttempt (withAttempt (v rank) ((shard (v rank)).assembled
        (Group.assembledTo size (fun rank => (shard (v rank)).extents)
          (fun rank => (shard (v rank)).values) (fun rank => (shard (v rank)).queue.drained)
          rank))) :=
  .of_eq (fun _ _ => Program.bind_assoc ..)
    ((Group.settles_assemble topology sameTags ready).map fun rank assembled =>
      Reaction.ofAttempt (withAttempt (v rank) assembled))

end DistributedVector

open DistributedVector

namespace VectorStep

/-- The same as a method of a vector with ghosts. -/
def call : VectorStep → GhostedCall
  | queueSet id value => .change (.queue (.one .set ⟨id, value⟩))
  | queueAdd id value => .change (.queue (.one .add ⟨id, value⟩))
  | write index value => .change (.set index value)
  | assemble c => .assemble c
  | updateGhosts c => .refresh c

theorem call_injective : Function.Injective call := by
  intro step other same
  cases step <;> cases other <;> cases same <;> rfl

theorem call_ne_norm (step : VectorStep) (c : Communicator) (which : Norm) :
    step.call ≠ .norm c which := by
  cases step <;> nofun

/-- What comes of a step if no other rank takes part. -/
def alone {V : Type} [DistributedVector V] (v : V) : VectorStep → Reaction V
  | queueSet id value => .ofAttempt (DistributedVector.queueSet v id value)
  | queueAdd id value => .ofAttempt (DistributedVector.queueAdd v id value)
  | write index value => .ofWrite v (setLocal? v index value)
  | assemble c =>
    ⟨withShard v { shard v with queue := .empty }, some (c.check (shard v).topology)⟩
  | updateGhosts c => ⟨v, some (c.check (shard v).topology)⟩

theorem computes_react {V : Type} [DistributedVector V] {v : V} {step : VectorStep}
    (apart : step.call.joint? (shard v).topology = none)
    (refuses : ∀ c e, c.check (shard v).topology = .error e →
      (DistributedVector.updateGhosts v c).run.Computes (.error e)) :
    (react v step).Computes (step.alone v) := by
  have refused : ∀ c ∈ step.call.communicator?, c.check (shard v).topology =
      .error (.communicatorMismatch (shard v).topology c.topology) :=
    fun c given => if_neg (GhostedCall.ne_of_joint? apart c given)
  cases step with
  | queueSet id value | queueAdd id value | write index value => exact Program.computes_done _
  | assemble c =>
    show (Program.bind (Program.bind ((shard v).assemble c) _) _).Computes
      (Reaction.mk _ (some (c.check (shard v).topology)))
    unfold Shard.assemble
    rw [refused c rfl]
    exact Program.computes_done _
  | updateGhosts c =>
    show (Program.bind _ _).Computes (Reaction.mk v (some (c.check (shard v).topology)))
    rw [refused c rfl]
    exact (refuses c _ (refused c rfl)).bind (Program.computes_done _)

theorem after_alone (v : GhostedShard) (step : VectorStep) :
    (step.alone v).after = (step.call.alone v).state := by
  cases step with
  | queueSet | queueAdd | assemble | updateGhosts => rfl
  | write index value =>
    show (Reaction.ofWrite v ((v.shard.set? index value).map _)).after =
      { v with shard := (Attempt.orElse v.shard (v.shard.set index value)).state }
    unfold Shard.set
    cases v.shard.set? index value <;> rfl

end VectorStep

/-! ## Forgetting ghosts -/

namespace GhostedShard

/-- The same vector without ghosts, and with tags of its own. -/
def plain (tags : VectorTags) (v : GhostedShard) : Shard := { v.shard with tags }

theorem afterAll_plain (tags : VectorTags) (v : GhostedShard)
    (past : List (Reaction GhostedShard)) :
    afterAll (v.plain tags) (past.map (Reaction.map (plain tags))) =
      (afterAll v past).plain tags := by
  induction past generalizing v with
  | nil => rfl
  | cons reaction later ih => exact ih reaction.after

theorem assembled_plain (tags : VectorTags) (v : GhostedShard)
    (result : Except VectorError (List Scalar)) :
    Reaction.ofAttempt (withAttempt (v.plain tags) ((v.plain tags).assembled result)) =
      (Reaction.ofAttempt (withAttempt v (v.shard.assembled result))).map (plain tags) := by
  cases result <;> rfl

end GhostedShard

namespace VectorStep

variable (tags : VectorTags) (v : GhostedShard)

/-- What a rank does by itself has nothing to do with ghosts. -/
theorem alone_plain (step : VectorStep) :
    step.alone (v.plain tags) = (step.alone v).map (GhostedShard.plain tags) := by
  have queued (kind : OpKind) (update : Update) : (v.plain tags).enqueue kind update =
      ⟨{ (v.shard.enqueue kind update).state with tags },
        (v.shard.enqueue kind update).outcome⟩ := by
    have known : (v.plain tags).checkId update.id = v.shard.checkId update.id := rfl
    unfold Shard.enqueue
    rw [known]
    cases v.shard.checkId update.id <;> rfl
  cases step with
  | queueSet id value => exact congrArg Reaction.ofAttempt (queued .set ⟨id, value⟩)
  | queueAdd id value => exact congrArg Reaction.ofAttempt (queued .add ⟨id, value⟩)
  | write index value =>
    show Reaction.ofWrite _ (Option.map _ (if index < v.shard.localSize then _ else _)) =
      (Reaction.ofWrite v (Option.map _ (if index < v.shard.localSize then _ else _))).map _
    split <;> rfl
  | assemble | updateGhosts => rfl

end VectorStep

namespace GhostedShard

variable {size : Nat} {e : Extents} {ids : Nat → List UInt64} {tags : VectorTags}
  {first : Nat → GhostedShard}

/-- Steps in which no other rank takes part come to the same without the ghosts. -/
theorem exists_steps_alone (plainTags : VectorTags) {start v : GhostedShard} {waiting : Nat}
    {steps : List VectorStep}
    (apart : ∀ step ∈ steps, step.call.joint? start.shard.topology = none)
    (kept : start.Kept waiting v) :
    ∃ past, (reactAll v steps).Computes past ∧
      (reactAll (v.plain plainTags) steps).Computes (past.map (Reaction.map (plain plainTags))) ∧
      past.length = steps.length ∧
      start.Kept ((steps.map VectorStep.call).foldl GhostedCall.waitingAfter waiting)
        (afterAll v past) := by
  induction steps generalizing v waiting with
  | nil => exact ⟨[], Program.computes_done _, Program.computes_done _, rfl, kept⟩
  | cons step rest ih =>
    obtain ⟨here, later⟩ := List.forall_mem_cons.1 apart
    rw [← kept.topology] at here
    have keeps := kept.alone step.call
    rw [← step.after_alone] at keeps
    obtain ⟨past, ghosted, simple, long, keptLater⟩ := ih later keeps
    have one : (react v step).Computes (step.alone v) :=
      VectorStep.computes_react here fun c e refused => by
        show (GhostedShard.refresh v c).run.Computes _
        unfold refresh
        rw [show c.check v.shard.topology = _ from refused]
        exact Program.computes_done _
    have other : (react (v.plain plainTags) step).Computes (step.alone (v.plain plainTags)) :=
      VectorStep.computes_react here fun c e refused => by
        show (Collective.ofExcept (c.check v.shard.topology) >>= _ :
          Collective Shard).run.Computes _
        rw [show c.check v.shard.topology = _ from refused]
        exact Program.computes_done _
    rw [step.alone_plain] at other
    exact ⟨step.alone v :: past, one.bind (ghosted.bind (Program.computes_done _)),
      other.bind (simple.bind (Program.computes_done _)), congrArg (· + 1) long, keptLater⟩

section founded

variable (founded : Founded size e ids tags first) (plainTags : VectorTags)

include founded

/-- What ranks do together comes to the same without the ghosts. -/
theorem settles_steps_joint (kind : Joint) {v : Nat → GhostedShard} {waiting : Nat → Nat}
    {step : Nat → VectorStep} (kept : ∀ rank < size, (first rank).Kept (waiting rank) (v rank))
    (joins : ∀ rank < size, (step rank).call.Joins (.member rank size) kind)
    (room : ∀ rank < size, waiting rank * Update.recordSize ≤ lastIndex) :
    ∃ reactions : Nat → Reaction GhostedShard,
      Group.Settles size (fun rank => react (v rank) (step rank)) reactions ∧
      Group.Settles size (fun rank => react ((v rank).plain plainTags) (step rank))
        (fun rank => (reactions rank).map (plain plainTags)) ∧
      ∀ rank < size, (first rank).Kept ((step rank).call.waitingAfter (waiting rank))
        (reactions rank).after := by
  cases kind with
  | assembly =>
    have same : ∀ rank < size, step rank = .assemble (.member rank size) :=
      fun rank inside => VectorStep.call_injective (joins rank inside)
    have topology : ∀ rank < size, (v rank).shard.topology = ⟨rank, size⟩ :=
      fun rank inside => topology_eq_of_kept founded inside (kept rank inside)
    have sameTags : ∀ rank < size, (v rank).shard.tags.assembly = tags.assembly :=
      fun rank inside => congrArg VectorTags.assembly
        ((kept rank inside).tags.trans (founded.tags_eq inside))
    have ready := ready_of_kept founded kept room
    refine ⟨_, .of_eq (fun rank inside => ?_) (settles_react_assemble topology sameTags ready),
      .congr (@settles_react_assemble _ _ size plainTags.assembly
        (fun rank => (v rank).plain plainTags) topology (fun _ _ => rfl) ready)
        (fun rank inside => ?_) (fun rank _ => (v rank).assembled_plain plainTags _),
      fun rank inside => ?_⟩
    · rw [same rank inside]
    · rw [same rank inside]
    · rw [same rank inside]
      exact kept_of_assembled kept inside
  | exchange =>
    have same : ∀ rank < size, step rank = .updateGhosts (.member rank size) :=
      fun rank inside => VectorStep.call_injective (joins rank inside)
    refine ⟨_, .of_eq (fun rank inside => ?_) ((settles_exchanges founded kept).map
      fun _ => Reaction.ofAttempt), .of_computes fun rank inside => ?_, fun rank inside => ?_⟩
    · rw [same rank inside]
      show _ = Program.bind (Program.bind _ _) _
      rw [Program.bind_assoc]
      rfl
    -- without ghosts there is only the check
    · rw [same rank inside]
      show (Program.bind (Collective.ofExcept ((Communicator.member rank size).check
        (v rank).shard.topology) >>= _ : Collective Shard).run _).Computes _
      rw [check_eq_of_kept founded inside (kept rank inside)]
      exact Program.computes_done _
    · rw [same rank inside]
      refine (kept rank inside).withGhosts ?_
      rw [freshGhosts, List.length_map, founded.ghosts_eq inside, List.length_replicate]
  | norm =>
    have nobody : ∀ rank, ¬rank < size := by
      intro rank inside
      obtain ⟨which, joined⟩ := joins rank inside
      exact (step rank).call_ne_norm _ which joined
    exact ⟨fun rank => ⟨v rank, none⟩, .of_computes fun rank inside => absurd inside (nobody rank),
      .of_computes fun rank inside => absurd inside (nobody rank),
      fun rank inside => absurd inside (nobody rank)⟩

/-- Programs that do the same things together in the same order come to the same without the
ghosts. -/
theorem settles_reactAll (kinds : List Joint) {v : Nat → GhostedShard} {waiting : Nat → Nat}
    {steps : Nat → List VectorStep}
    (kept : ∀ rank < size, (first rank).Kept (waiting rank) (v rank))
    (order : ∀ rank < size,
      (steps rank).filterMap (fun step => step.call.joint? ⟨rank, size⟩) = kinds)
    (allowed : ∀ rank < size,
      GhostedCall.Allowed size rank (waiting rank) ((steps rank).map VectorStep.call)) :
    ∃ traces : Nat → List (Reaction GhostedShard),
      Group.Settles size (fun rank => reactAll (v rank) (steps rank)) traces ∧
      Group.Settles size (fun rank => reactAll ((v rank).plain plainTags) (steps rank))
        (fun rank => (traces rank).map (Reaction.map (plain plainTags))) ∧
      ∀ rank < size, (traces rank).length = (steps rank).length := by
  -- every rank has some steps of its own, and then perhaps one with the others
  have begin {v : Nat → GhostedShard} {waiting : Nat → Nat} {before : Nat → List VectorStep}
      (kept : ∀ rank < size, (first rank).Kept (waiting rank) (v rank))
      (apart : ∀ rank < size, ∀ step ∈ before rank, step.call.joint? ⟨rank, size⟩ = none) :=
    fun rank (inside : rank < size) => exists_steps_alone plainTags
      (fun step member => founded.topology_eq inside ▸ apart rank inside step member)
      (kept rank inside)
  induction kinds generalizing v waiting steps with
  | nil =>
    have apart : ∀ rank < size, ∀ step ∈ steps rank, step.call.joint? ⟨rank, size⟩ = none :=
      fun rank inside => List.filterMap_eq_nil_iff.1 (order rank inside)
    choose! traces ghosted simple long keeps using begin kept apart
    exact ⟨traces, .of_computes ghosted, .of_computes simple, long⟩
  | cons kind kinds ih =>
    have cut := fun rank inside => List.filterMap_eq_cons_iff.1 (order rank inside)
    choose! before step rest parted apart joint order using cut
    have allowed : ∀ rank < size, GhostedCall.Allowed size rank (waiting rank)
        ((before rank).map VectorStep.call ++
          (step rank).call :: (rest rank).map VectorStep.call) := by
      intro rank inside
      have whole := allowed rank inside
      rwa [parted rank inside, List.map_append, List.map_cons] at whole
    choose! pasts ghosted simple long keeps using begin kept apart
    have joins : ∀ rank < size, (step rank).call.Joins (.member rank size) kind :=
      fun rank inside =>
        GhostedCall.joins_of_joint? (allowed rank inside).cut.1 (joint rank inside)
    obtain ⟨reactions, met, metPlain, keptLater⟩ := settles_steps_joint founded plainTags kind
      keeps joins fun rank inside => (allowed rank inside).cut.2.1
    obtain ⟨later, ran, ranPlain, longLater⟩ := ih keptLater order
      fun rank inside => (allowed rank inside).cut.2.2
    simp only [← afterAll_plain] at metPlain
    refine ⟨fun rank => pasts rank ++ reactions rank :: later rank,
      .of_eq (fun rank inside => ?_) (settles_reactAll_append ghosted met ran),
      .congr (settles_reactAll_append simple metPlain ranPlain) (fun rank inside => ?_)
        (fun rank _ => ?_), fun rank inside => ?_⟩
    · rw [parted rank inside]
    · rw [parted rank inside]
    · rw [List.map_append, List.map_cons]
    · rw [parted rank inside, List.length_append, List.length_append, List.length_cons,
        List.length_cons, long rank inside, longLater rank inside]

end founded

theorem Founded.kept_values (founded : Founded size e ids tags first) {rank : Nat}
    (inside : rank < size) {values : List Scalar} (filled : e.localSize rank = .ok values.length) :
    values.length = (first rank).shard.localSize ∧
      (first rank).Kept 0 { first rank with shard := { (first rank).shard with values } } := by
  have ranged := Extents.range_eq (founded.numRanks_eq inside ▸ inside : rank < e.numRanks)
  rw [Extents.localSize, ranged] at filled
  have whole : values.length = (first rank).shard.values.length :=
    (Except.ok.inj filled).symm.trans (founded.length_values inside).symm
  have start := founded.kept inside
  exact ⟨whole, start.withShard whole start.sound start.waiting⟩

end GhostedShard

/-! ## Whole programs -/

/-- The ranks of a group make vectors over the same extents, one time with ghosts and one time
without, give them the same entries and take the same steps. Then they see the same after every
step: what came of it, the owned entries, how many updates wait and of which kind they are. -/
theorem observed_alike {size : Nat} {e : Extents} {ids : Nat → List UInt64}
    {values : Nat → List Scalar} {steps : Nat → List VectorStep} (ranks : e.numRanks = size)
    (valid : ∀ rank < size,
      (ids rank).Nodup ∧ ∀ id ∈ ids rank, id < e.globalSize ∧ ¬e.isOwnedBy id rank)
    (filled : ∀ rank < size, e.localSize rank = .ok (values rank).length)
    (inStep : GhostedShard.InStep size fun rank => (steps rank).map VectorStep.call)
    (plainTags tags : VectorTags) :
    ∃ traces : Nat → List Observation,
      Group.Settles size
        (fun rank => (do
          let v ← Collective.ofExcept (Shard.ofExtents (.member rank size) e plainTags)
          observe v (values rank) (steps rank) : Collective (List Observation)).run)
        (fun rank => .ok (traces rank)) ∧
      Group.Settles size
        (fun rank => (do
          let halo ← Halo.ofExtents (.member rank size) e (ids rank) tags.halo
          observe (GhostedShard.ofHalo halo tags) (values rank) (steps rank) :
            Collective (List Observation)).run)
        (fun rank => .ok (traces rank)) ∧
      ∀ rank < size, (traces rank).length = (steps rank).length := by
  obtain ⟨halos, together⟩ := Halo.exists_together ranks
    (fun rank inside => goodGhosts_iff.2 (valid rank inside)) tags.halo
  let blank (rank : Nat) : GhostedShard := .ofHalo (halos rank) tags
  have founded : GhostedShard.Founded size e ids tags blank := ⟨together, fun _ _ => rfl⟩
  have start := fun rank inside => founded.kept_values inside (filled rank inside)
  obtain ⟨traces, ghosted, simple, long⟩ := GhostedShard.settles_reactAll founded plainTags
    ((steps 0).filterMap fun step => step.call.joint? ⟨0, size⟩)
    (fun rank inside => (start rank inside).2)
    (fun rank inside => by
      have same := inStep.order rank inside 0 (Nat.zero_lt_of_lt inside)
      rwa [List.filterMap_map, List.filterMap_map] at same) inStep.allowed
  refine ⟨fun rank => (traces rank).map observation, ?_, ?_, fun rank inside => ?_⟩
  · refine .congr (simple.map fun _ past => Except.ok (past.map observation))
      (fun rank inside => ?_) fun rank _ => ?_
    · have made : Shard.ofExtents (.member rank size) e plainTags =
          .ok (.zeroed ⟨rank, size⟩ e plainTags) := by
        unfold Shard.ofExtents
        rw [Communicator.topology_member inside, Extents.checkNumRanks, if_pos ranks]
        rfl
      have same : (blank rank).plain plainTags = .zeroed ⟨rank, size⟩ e plainTags := by
        show { (blank rank).shard with tags := plainTags } = _
        rw [founded.shard_eq inside]
        rfl
      rw [made, Collective.ofExcept_ok_bind, ← same]
      have whole : (values rank).length = (shard ((blank rank).plain plainTags)).localSize :=
        (start rank inside).1
      exact (observe_eq whole (steps rank)).symm
    · rw [List.map_map]
      rfl
  · have made : Group.Settles size
        (fun rank => (Halo.ofExtents (.member rank size) e (ids rank) tags.halo).run)
        fun rank => .ok (halos rank) :=
      (Halo.settles_ofExtents size (fun _ => e) ids tags.halo).congr (fun _ _ => rfl) together
    refine Collective.settles_bind_ok made (.of_eq (fun rank inside => ?_)
      (ghosted.map fun _ past => Except.ok (past.map observation)))
    have whole : (values rank).length = (shard (blank rank)).localSize := (start rank inside).1
    exact observe_eq whole (steps rank)
  · rw [List.length_map, long rank inside]

/-- Two ranks, of which the second one owns one entry more than the first. -/
def crossedExtents : Extents := ⟨[2, 5], by decide, by decide⟩

def crossedValues : Nat → List Scalar
  | 0 => [.one, .zero]
  | _ => [.negZero, .nan, .one]

/-- The first rank mixes its updates and is refused an id. Then both try to assemble and to
exchange with nobody, and at last they assemble together. -/
def crossedSteps : Nat → List VectorStep
  | 0 => [.write 0 .infinity, .updateGhosts (.member 0 2), .queueAdd 2 .one, .queueSet 1 .zero,
      .queueAdd 7 .one, .assemble .single, .updateGhosts .single, .queueSet 2 .one,
      .assemble (.member 0 2), .write 5 .one]
  | _ => [.updateGhosts (.member 1 2), .assemble .single, .queueAdd 0 .nan,
      .updateGhosts .single, .assemble (.member 1 2)]

theorem observed_alike_crossed : ∃ traces : Nat → List Observation,
    Group.Settles 2
      (fun rank => (do
        let v ← Collective.ofExcept (Shard.ofExtents (.member rank 2) crossedExtents default)
        observe v (crossedValues rank) (crossedSteps rank) : Collective (List Observation)).run)
      (fun rank => .ok (traces rank)) ∧
    Group.Settles 2
      (fun rank => (do
        let halo ← Halo.ofExtents (.member rank 2) crossedExtents
          (GhostedShard.crossedIds rank) (.ofBase 7)
        observe (GhostedShard.ofHalo halo (.ofBase 7)) (crossedValues rank) (crossedSteps rank) :
          Collective (List Observation)).run)
      (fun rank => .ok (traces rank)) ∧
    (traces 0).length = 10 ∧ (traces 1).length = 5 := by
  let calls (rank : Nat) := (crossedSteps rank).map VectorStep.call
  have room : ∀ rank < 2, ∀ past ∈ (calls rank).inits,
      past.foldl GhostedCall.waitingAfter 0 * Update.recordSize ≤ lastIndex := by
    decide
  have own : ∀ rank < 2, ∀ call ∈ calls rank, ∀ c ∈ call.communicator?,
      c.topology = ⟨rank, 2⟩ → c = .member rank 2 := by
    decide
  have inStep : GhostedShard.InStep 2 calls := ⟨fun rank inside => ⟨own rank inside,
    fun past before => room rank inside past ((List.mem_inits _ _).2 before)⟩, by decide⟩
  have valid : ∀ rank < 2, (GhostedShard.crossedIds rank).Nodup ∧
      ∀ id ∈ GhostedShard.crossedIds rank,
        id < crossedExtents.globalSize ∧ ¬crossedExtents.isOwnedBy id rank
    | 0, _ => ⟨by decide, List.forall_mem_singleton.2 (by decide)⟩
    | 1, _ => ⟨by decide, List.forall_mem_singleton.2 (by decide)⟩
  have filled : ∀ rank < 2,
      crossedExtents.localSize rank = .ok (crossedValues rank).length := by
    decide
  obtain ⟨traces, simple, ghosted, long⟩ := observed_alike (by decide) valid filled
    inStep default (.ofBase 7)
  exact ⟨traces, simple, ghosted, long 0 (by decide), long 1 (by decide)⟩

end HaloVector
