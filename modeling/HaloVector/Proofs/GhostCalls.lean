import HaloVector.Proofs.VectorCalls

/-!
# Calls on vectors with ghosts

What one rank does with its part of a vector that has ghosts, call by call, and what is true
of the part after every call.

* `GhostedCall` are the methods of such a vector, `GhostedShard.runCalls` makes a list of calls
  and records each as a `Moment`.
* `ShardCall.run_eq`: a method for the owned part leaves all else alone, the number of owned
  entries included.
* `GhostedShard.Follows` is what the ghosts of a part may go through, and `Follows.ghosts_eq`
  reads the ghosts off it.
* `GhostedShard.exists_alone`: what a rank does by itself comes to an end, without an exchange.
-/

namespace HaloVector

/-! ## The owned part -/

/-- A method for the owned part of a vector that needs no other rank. -/
inductive ShardCall
  | set (index : Nat) (value : Scalar)
  | fill (value : Scalar)
  | setValues (values : List Scalar)
  | setBlock (offset : Nat) (values : List Scalar)
  | copyValues (source : Shard)
  | copyBlock (source : Shard) (sourceOffset offset count : Nat)
  | add (other : Shard)
  | addMultiple (a : Scalar) (other : Shard)
  | scaleAdd (a : Scalar) (other : Shard)
  | scale (a : Scalar)
  | shift (a : Scalar)
  | queue (call : QueueCall)

/-- Stays with a state unless there is a changed one. -/
def Attempt.orElse {σ : Type} (state : σ) : Except VectorError σ → Attempt σ
  | .ok changed => ⟨changed, .ok ()⟩
  | .error e => ⟨state, .error e⟩

namespace ShardCall

def run (s : Shard) : ShardCall → Attempt Shard
  | set index value => .orElse s (s.set index value)
  | fill value => ⟨s.fill value, .ok ()⟩
  | setValues values => .orElse s (s.setValues values)
  | setBlock offset values => .orElse s (s.setBlock offset values)
  | copyValues source => .orElse s (s.copyValues source)
  | copyBlock source sourceOffset offset count =>
    .orElse s (s.copyBlock source sourceOffset offset count)
  | add other => .orElse s (s.add other)
  | addMultiple a other => .orElse s (s.addMultiple a other)
  | scaleAdd a other => .orElse s (s.scaleAdd a other)
  | scale a => ⟨s.scale a, .ok ()⟩
  | shift a => ⟨s.shift a, .ok ()⟩
  | queue call => call.run s

/-- How many updates a call can queue. -/
def length : ShardCall → Nat
  | queue call => call.length
  | _ => 0

end ShardCall

namespace Shard

/-- An operation changes nothing but owned entries, and not their number. -/
def Writes (s : Shard) (result : Except VectorError Shard) : Prop :=
  ∀ changed, result = .ok changed →
    ∃ values, values.length = s.values.length ∧ changed = { s with values }

variable (s other : Shard)

theorem writes_set (index : Nat) (value : Scalar) : s.Writes (s.set index value) := by
  intro changed came
  unfold set set? at came
  split at came
  · rename_i found
    split at found
    · cases found
      cases came
      exact ⟨_, List.length_set, rfl⟩
    · cases found
  · cases came

theorem writes_setValues (values : List Scalar) : s.Writes (s.setValues values) := by
  intro changed came
  unfold setValues at came
  split at came
  · rename_i whole
    cases came
    exact ⟨values, whole, rfl⟩
  · cases came

theorem writes_setBlock (offset : Nat) (values : List Scalar) :
    s.Writes (s.setBlock offset values) := by
  intro changed came
  obtain ⟨_, fits, came⟩ := bind_eq_ok_iff.1 came
  cases came
  exact ⟨_, length_writeAt (checkBlock_eq_ok_iff.1 fits), rfl⟩

theorem writes_copyBlock (sourceOffset offset count : Nat) :
    s.Writes (s.copyBlock other sourceOffset offset count) := by
  intro changed came
  obtain ⟨_, there, came⟩ := bind_eq_ok_iff.1 came
  obtain ⟨_, fits, came⟩ := bind_eq_ok_iff.1 came
  cases came
  have copied := length_slice (checkBlock_eq_ok_iff.1 there)
  exact ⟨_, length_writeAt (copied.symm ▸ checkBlock_eq_ok_iff.1 fits), rfl⟩

theorem writes_combine (f : Scalar → Scalar → Scalar) : s.Writes (s.combine other f) := by
  intro changed came
  obtain ⟨_, matching, came⟩ := bind_eq_ok_iff.1 came
  cases came
  unfold checkLayout at matching
  split at matching
  · rename_i same
    refine ⟨_, ?_, rfl⟩
    rw [List.length_zipWith]
    exact Nat.min_eq_left (Nat.le_of_eq same.1)
  · cases matching

variable {s}

theorem Writes.orElse {result : Except VectorError Shard} (writes : s.Writes result) :
    ∃ values, values.length = s.values.length ∧
      (Attempt.orElse s result).state = { s with values } := by
  cases result with
  | ok changed => exact writes changed rfl
  | error e => exact ⟨s.values, rfl, rfl⟩

end Shard

/-- A call changes nothing but owned entries and the queue. -/
theorem ShardCall.run_eq {s : Shard} (sound : s.queue.Sound s.globalSize) (call : ShardCall) :
    ∃ values queue, (call.run s).state = { s with values, queue } ∧
      values.length = s.values.length ∧ queue.Sound s.globalSize ∧
      queue.length ≤ s.queue.length + call.length := by
  have written {attempt : Attempt Shard}
      (writes : ∃ values, values.length = s.values.length ∧ attempt.state = { s with values }) :
      ∃ values queue, attempt.state = { s with values, queue } ∧
        values.length = s.values.length ∧ queue.Sound s.globalSize ∧
        queue.length ≤ s.queue.length + 0 := by
    obtain ⟨values, whole, same⟩ := writes
    exact ⟨values, s.queue, same, whole, sound, Nat.le_refl _⟩
  cases call with
  | set index value => exact written (s.writes_set index value).orElse
  | setValues values => exact written (s.writes_setValues values).orElse
  | setBlock offset values => exact written (s.writes_setBlock offset values).orElse
  | copyBlock source sourceOffset offset count =>
    exact written (s.writes_copyBlock source sourceOffset offset count).orElse
  | copyValues other | add other | addMultiple a other | scaleAdd a other =>
    exact written (s.writes_combine other _).orElse
  | fill value | scale a | shift a => exact written ⟨_, List.length_map _, rfl⟩
  | queue call =>
    obtain ⟨queue, same, held⟩ := Shard.run_eq sound call
    have bound := s.length_run_le call
    rw [same] at bound
    exact ⟨s.values, queue, same, rfl, held, bound⟩

/-! ## The whole vector -/

/-- A method of a vector with ghosts. What others take part in is given a communicator. -/
inductive GhostedCall
  | change (call : ShardCall)
  | assemble (c : Communicator)
  | refresh (c : Communicator)
  | norm (c : Communicator) (which : Norm)

instance : Inhabited GhostedCall := ⟨.assemble .single⟩

/-- What the ranks of a group do together. -/
inductive Joint
  | assembly
  | exchange
  | norm
deriving DecidableEq

namespace GhostedCall

/-- What a call leaves of a vector. A norm leaves it alone, and its value is not kept. -/
def run (v : GhostedShard) : GhostedCall → Program (Attempt GhostedShard)
  | change call => pure (DistributedVector.withAttempt v (call.run v.shard))
  | assemble c => DistributedVector.assembleQueued v c
  | refresh c => do pure (.orElse v (← (v.refresh c).run))
  | norm c which => do pure ⟨v, (← (v.shard.norm c which).run).map fun _ => ()⟩

def communicator? : GhostedCall → Option Communicator
  | change _ => none
  | assemble c | refresh c | norm c _ => some c

/-- What a call is to the group of a vector. A communicator of another topology is refused, and
then no other rank takes part. -/
def joint? (t : Topology) : GhostedCall → Option Joint
  | change _ => none
  | assemble c => if c.topology = t then some .assembly else none
  | refresh c => if c.topology = t then some .exchange else none
  | norm c _ => if c.topology = t then some .norm else none

/-- How many updates wait after a call, at most, if `waiting` did before. -/
def waitingAfter (waiting : Nat) : GhostedCall → Nat
  | change call => waiting + call.length
  | assemble _ => 0
  | refresh _ | norm _ _ => waiting

/-- What a call leaves of a vector if no other rank takes part. -/
def alone (v : GhostedShard) : GhostedCall → Attempt GhostedShard
  | change call => DistributedVector.withAttempt v (call.run v.shard)
  | assemble c =>
    ⟨{ v with shard := { v.shard with queue := .empty } }, c.check v.shard.topology⟩
  | refresh c | norm c _ => ⟨v, c.check v.shard.topology⟩

/-- Who takes part in nothing with a communicator was given one of another topology. -/
theorem ne_of_joint? {t : Topology} {call : GhostedCall} (apart : call.joint? t = none) :
    ∀ c ∈ call.communicator?, c.topology ≠ t := by
  cases call with
  | change call => exact nofun
  | assemble c | refresh c | norm c which =>
    rintro _ ⟨⟩ same
    cases (if_pos same).symm.trans apart

theorem computes_run {v : GhostedShard} {call : GhostedCall}
    (apart : call.joint? v.shard.topology = none) : (call.run v).Computes (call.alone v) := by
  have refused : ∀ c ∈ call.communicator?, c.check v.shard.topology =
      .error (.communicatorMismatch v.shard.topology c.topology) :=
    fun c given => if_neg (ne_of_joint? apart c given)
  cases call with
  | change call => exact Program.computes_done _
  | assemble c =>
    show (Program.bind (v.shard.assemble c) _).Computes (Attempt.mk _ (c.check v.shard.topology))
    unfold Shard.assemble
    rw [refused c rfl]
    exact Program.computes_done _
  | refresh c =>
    show (Program.bind (v.refresh c).run _).Computes (Attempt.mk v (c.check v.shard.topology))
    unfold GhostedShard.refresh
    rw [refused c rfl]
    exact Program.computes_done _
  | norm c which =>
    show (Program.bind (v.shard.norm c which).run _).Computes
      (Attempt.mk v (c.check v.shard.topology))
    unfold Shard.norm
    rw [refused c rfl]
    exact Program.computes_done _

end GhostedCall

/-- A call that was made, and what came of it. -/
structure Moment where
  call : GhostedCall
  outcome : Except VectorError Unit
  after : GhostedShard

/-- The vector after an exchange, if the call was one that succeeded. -/
def Moment.refreshed? (moment : Moment) : Option GhostedShard :=
  match moment.call, moment.outcome with
  | .refresh _, .ok () => some moment.after
  | _, _ => none

namespace GhostedShard

/-- Makes the calls one after the other, whatever becomes of them. -/
def runCalls (v : GhostedShard) : List GhostedCall → Program (List Moment)
  | [] => pure []
  | call :: rest => do
    let attempt ← call.run v
    let later ← attempt.state.runCalls rest
    pure (⟨call, attempt.outcome, attempt.state⟩ :: later)

/-- What has become of a vector. -/
def after (v : GhostedShard) (past : List Moment) : GhostedShard :=
  past.foldl (fun _ moment => moment.after) v

/-- The vector at each exchange that succeeded. -/
def exchanges (past : List Moment) : List GhostedShard := past.filterMap Moment.refreshed?

theorem runCalls_append (v : GhostedShard) (calls more : List GhostedCall) :
    v.runCalls (calls ++ more) = (v.runCalls calls).bind fun past =>
      ((v.after past).runCalls more).bind fun later => .done (past ++ later) := by
  induction calls generalizing v with
  | nil => exact (Program.bind_done _).symm
  | cons call rest ih =>
    show (call.run v).bind _ = ((call.run v).bind _).bind _
    rw [Program.bind_assoc]
    congr 1
    funext attempt
    show (attempt.state.runCalls (rest ++ more)).bind _ =
      ((attempt.state.runCalls rest).bind _).bind _
    rw [ih, Program.bind_assoc, Program.bind_assoc]
    congr 1
    funext past
    show Program.bind (Program.bind _ _) _ = Program.bind _ _
    rw [Program.bind_assoc]
    rfl

/-! ## What calls keep -/

/-- What no call changes of a vector, which was `first` in the beginning. -/
structure Kept (first : GhostedShard) (waiting : Nat) (v : GhostedShard) : Prop where
  halo : v.halo = first.halo
  topology : v.shard.topology = first.shard.topology
  extents : v.shard.extents = first.shard.extents
  tags : v.shard.tags = first.shard.tags
  owned : v.shard.values.length = first.shard.values.length
  ghosts : v.ghosts.length = first.ghosts.length
  sound : v.shard.queue.Sound first.shard.globalSize
  waiting : v.shard.queue.length ≤ waiting

section kept

variable {first v : GhostedShard} {waiting : Nat}

theorem Kept.withShard (kept : first.Kept waiting v) {values : List Scalar} {queue : OpQueue}
    (whole : values.length = v.shard.values.length) (sound : queue.Sound first.shard.globalSize)
    {later : Nat} (bound : queue.length ≤ later) :
    first.Kept later { v with shard := { v.shard with values, queue } } where
  halo := kept.halo
  topology := kept.topology
  extents := kept.extents
  tags := kept.tags
  owned := whole.trans kept.owned
  ghosts := kept.ghosts
  sound := sound
  waiting := bound

theorem Kept.withGhosts (kept : first.Kept waiting v) {ghosts : List Scalar}
    (whole : ghosts.length = first.ghosts.length) :
    first.Kept waiting { v with ghosts } where
  halo := kept.halo
  topology := kept.topology
  extents := kept.extents
  tags := kept.tags
  owned := kept.owned
  ghosts := whole
  sound := kept.sound
  waiting := kept.waiting

theorem Kept.alone (kept : first.Kept waiting v) (call : GhostedCall) :
    first.Kept (call.waitingAfter waiting) (call.alone v).state := by
  cases call with
  | change call =>
    have known : v.shard.globalSize = first.shard.globalSize :=
      congrArg Extents.globalSize kept.extents
    obtain ⟨values, queue, same, whole, sound, bound⟩ :=
      call.run_eq (known.symm ▸ kept.sound)
    show first.Kept _ { v with shard := (call.run v.shard).state }
    rw [same]
    exact kept.withShard whole (known ▸ sound)
      (Nat.le_trans bound (Nat.add_le_add_right kept.waiting _))
  | assemble c => exact kept.withShard rfl (OpQueue.sound_empty _) (Nat.le_refl 0)
  | refresh c | norm c which => exact kept

end kept

/-! ## What ghosts go through -/

/-- A call that leaves the ghosts alone. If it was to exchange them, it was refused. -/
structure Quiet (v : GhostedShard) (moment : Moment) : Prop where
  ghosts : moment.after.ghosts = v.ghosts
  refused : ∀ c, moment.call = .refresh c →
    c.topology ≠ v.shard.topology ∧ moment.outcome ≠ .ok () ∧ moment.after = v

/-- A call that replaces the ghosts and nothing else. `fresh` makes the new ghosts from what all
ranks own, which is `owned`. -/
structure Exchanges (rank : Nat) (fresh : (Nat → List Scalar) → List Scalar)
    (owned : Nat → List Scalar) (v : GhostedShard) (moment : Moment) : Prop where
  call : ∃ c, moment.call = .refresh c
  outcome : moment.outcome = .ok ()
  after : moment.after = { v with ghosts := fresh owned }
  owned : owned rank = v.shard.values

/-- The calls that were made keep what is to be kept, and the ghosts change in exchanges only.
The list has what all ranks owned at each of the exchanges. -/
inductive Follows (first : GhostedShard) (rank : Nat)
    (fresh : (Nat → List Scalar) → List Scalar) :
    List (Nat → List Scalar) → Nat → GhostedShard → List Moment → Prop
  | nil (waiting : Nat) (v : GhostedShard) : Follows first rank fresh [] waiting v []
  | quiet {shots : List (Nat → List Scalar)} {waiting : Nat} {v : GhostedShard}
      {moment : Moment} {later : List Moment}
      (kept : first.Kept (moment.call.waitingAfter waiting) moment.after)
      (quiet : v.Quiet moment)
      (rest : Follows first rank fresh shots (moment.call.waitingAfter waiting) moment.after
        later) : Follows first rank fresh shots waiting v (moment :: later)
  | exchange {owned : Nat → List Scalar} {shots : List (Nat → List Scalar)} {waiting : Nat}
      {v : GhostedShard} {moment : Moment} {later : List Moment}
      (kept : first.Kept (moment.call.waitingAfter waiting) moment.after)
      (exchanges : v.Exchanges rank fresh owned moment)
      (rest : Follows first rank fresh shots (moment.call.waitingAfter waiting) moment.after
        later) : Follows first rank fresh (owned :: shots) waiting v (moment :: later)

theorem quiet_alone {v : GhostedShard} {call : GhostedCall}
    (apart : call.joint? v.shard.topology = none) :
    v.Quiet ⟨call, (call.alone v).outcome, (call.alone v).state⟩ := by
  constructor
  case ghosts =>
    cases call with
    | change | assemble | refresh | norm => rfl
  case refused =>
    intro c refreshing
    obtain rfl : call = .refresh c := refreshing
    have other : c.topology ≠ v.shard.topology := GhostedCall.ne_of_joint? apart c rfl
    refine ⟨other, ?_, rfl⟩
    show c.check v.shard.topology ≠ .ok ()
    rw [Communicator.check, if_neg other]
    rintro ⟨⟩

theorem Quiet.refreshed?_eq {v : GhostedShard} {moment : Moment} (quiet : v.Quiet moment) :
    moment.refreshed? = none := by
  obtain ⟨call, outcome, after⟩ := moment
  cases call with
  | change | assemble | norm => rfl
  | refresh c =>
    obtain ⟨-, failed, -⟩ := quiet.refused c rfl
    cases outcome with
    | ok => exact absurd rfl failed
    | error e => rfl

theorem Exchanges.refreshed?_eq {rank : Nat} {fresh : (Nat → List Scalar) → List Scalar}
    {owned : Nat → List Scalar} {v : GhostedShard} {moment : Moment}
    (exchanges : v.Exchanges rank fresh owned moment) :
    moment.refreshed? = some { v with ghosts := fresh owned } := by
  obtain ⟨⟨c, refreshing⟩, passed, same, -⟩ := exchanges
  obtain ⟨call, outcome, after⟩ := moment
  cases refreshing
  cases passed
  cases same
  rfl

namespace Follows

variable {first : GhostedShard} {rank : Nat} {fresh : (Nat → List Scalar) → List Scalar}
  {shots more : List (Nat → List Scalar)} {waiting : Nat} {v : GhostedShard}
  {past later : List Moment}

theorem append (follows : Follows first rank fresh shots waiting v past)
    (onward : Follows first rank fresh more
      ((past.map Moment.call).foldl GhostedCall.waitingAfter waiting) (v.after past) later) :
    Follows first rank fresh (shots ++ more) waiting v (past ++ later) := by
  induction follows with
  | nil => exact onward
  | quiet kept quiet _ ih => exact .quiet kept quiet (ih onward)
  | exchange kept exchanges _ ih => exact .exchange kept exchanges (ih onward)

theorem kept (follows : Follows first rank fresh shots waiting v past)
    (start : first.Kept waiting v) :
    first.Kept ((past.map Moment.call).foldl GhostedCall.waitingAfter waiting) (v.after past) := by
  induction follows with
  | nil => exact start
  | quiet kept _ _ ih | exchange kept _ _ ih => exact ih kept

/-- What is true of all that has happened was true on the way. -/
theorem exists_earlier (follows : Follows first rank fresh shots waiting v later)
    (before : past <+: later) :
    ∃ earlier, earlier <+: shots ∧ Follows first rank fresh earlier waiting v past := by
  induction follows generalizing past with
  | nil =>
    rw [List.prefix_nil.1 before]
    exact ⟨[], List.prefix_refl _, .nil _ _⟩
  | quiet kept quiet _ ih =>
    rcases List.prefix_cons_iff.1 before with rfl | ⟨begun, rfl, onward⟩
    · exact ⟨[], List.nil_prefix, .nil _ _⟩
    · obtain ⟨earlier, listed, follows⟩ := ih onward
      exact ⟨earlier, listed, .quiet kept quiet follows⟩
  | @exchange owned _ _ _ _ _ kept exchanges _ ih =>
    rcases List.prefix_cons_iff.1 before with rfl | ⟨begun, rfl, onward⟩
    · exact ⟨[], List.nil_prefix, .nil _ _⟩
    · obtain ⟨earlier, listed, follows⟩ := ih onward
      exact ⟨owned :: earlier, (List.prefix_cons_inj owned).2 listed,
        .exchange kept exchanges follows⟩

/-- The ghosts are those of the last exchange. -/
theorem ghosts_eq (follows : Follows first rank fresh shots waiting v past) :
    (v.after past).ghosts = (shots.getLast?.map fresh).getD v.ghosts := by
  induction follows with
  | nil => rfl
  | quiet _ quiet _ ih => exact quiet.ghosts ▸ ih
  | @exchange owned shots _ v moment _ _ exchanges _ ih =>
    have renewed : moment.after.ghosts = fresh owned := congrArg ghosts exchanges.after
    rw [renewed] at ih
    rw [List.getLast?_cons]
    cases last : shots.getLast? with
    | none => rwa [last] at ih
    | some shot => rwa [last] at ih

/-- At every exchange the rank had what the list says. -/
theorem exchanges_eq (follows : Follows first rank fresh shots waiting v past) :
    (exchanges past).map (fun then' => then'.shard.values) = shots.map (· rank) := by
  induction follows with
  | nil => rfl
  | quiet _ quiet _ ih =>
    rwa [exchanges, List.filterMap_cons_none quiet.refreshed?_eq]
  | exchange _ exchanged _ ih =>
    rw [exchanges, List.filterMap_cons_some exchanged.refreshed?_eq, List.map_cons, List.map_cons]
    exact congr (congrArg List.cons exchanged.owned.symm) ih

theorem kept_of_mem (follows : Follows first rank fresh shots waiting v past)
    {then' : GhostedShard} (member : then' ∈ exchanges past) :
    ∃ waiting, first.Kept waiting then' := by
  induction follows with
  | nil => cases member
  | quiet _ quiet _ ih =>
    rw [exchanges, List.filterMap_cons_none quiet.refreshed?_eq] at member
    exact ih member
  | exchange kept exchanged _ ih =>
    rw [exchanges, List.filterMap_cons_some exchanged.refreshed?_eq] at member
    rcases List.mem_cons.1 member with rfl | later
    · exact ⟨_, exchanged.after ▸ kept⟩
    · exact ih later

/-- A call that is to exchange the ghosts changes nothing else, and fails only if it is given
the communicator of others. -/
theorem refresh_eq {moment : Moment}
    (follows : Follows first rank fresh shots waiting v (past ++ moment :: later))
    {c : Communicator} (refreshing : moment.call = .refresh c) :
    moment.after.shard = (v.after past).shard ∧ moment.after.halo = (v.after past).halo ∧
      (moment.outcome = .ok () ∨
        c.topology ≠ (v.after past).shard.topology ∧ moment.after = v.after past) := by
  induction past generalizing shots waiting v with
  | nil =>
    cases follows with
    | quiet _ quiet _ =>
      obtain ⟨other, -, same⟩ := quiet.refused c refreshing
      exact ⟨congrArg shard same, congrArg halo same, .inr ⟨other, same⟩⟩
    | exchange _ exchanges _ =>
      have sameShard : moment.after.shard = v.shard := by rw [exchanges.after]
      have sameHalo : moment.after.halo = v.halo := by rw [exchanges.after]
      exact ⟨sameShard, sameHalo, .inl exchanges.outcome⟩
  | cons first past ih =>
    cases follows with
    | quiet _ _ rest | exchange _ _ rest => exact ih rest

end Follows

/-- Calls in which no other rank takes part. -/
theorem exists_alone {start v : GhostedShard} {rank waiting : Nat}
    {fresh : (Nat → List Scalar) → List Scalar} {calls : List GhostedCall}
    (apart : ∀ call ∈ calls, call.joint? start.shard.topology = none)
    (kept : start.Kept waiting v) :
    ∃ past, (v.runCalls calls).Computes past ∧ past.map Moment.call = calls ∧
      Follows start rank fresh [] waiting v past := by
  induction calls generalizing v waiting with
  | nil => exact ⟨[], Program.computes_done _, rfl, .nil _ _⟩
  | cons call rest ih =>
    obtain ⟨here, later⟩ := List.forall_mem_cons.1 apart
    rw [← kept.topology] at here
    have keeps := kept.alone call
    obtain ⟨past, computed, same, follows⟩ := ih later keeps
    refine ⟨⟨call, (call.alone v).outcome, (call.alone v).state⟩ :: past,
      (GhostedCall.computes_run here).bind (computed.bind (Program.computes_done _)),
      congrArg (call :: ·) same, .quiet keeps (quiet_alone here) follows⟩

end GhostedShard
end HaloVector
