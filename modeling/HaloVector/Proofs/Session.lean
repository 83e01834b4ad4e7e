import Mathlib.Logic.Function.Basic
import HaloVector.Proofs.Construction
import HaloVector.Proofs.GroupAssembly
import HaloVector.Shard.Arithmetic

/-!
# Sessions

A session is a list of calls that all ranks of a group make in the same order. What a
call makes is kept under a name, and later calls work on what is kept under a name. Every
rank brings its own arguments, good or bad.

* `Call.run` is what one rank does in a call, with its own memory only.
* `Family` is what the ranks have under one name. If a rank has a vector or a halo there,
  all have one, and these were made together (`Family.Linked`).
* Tags are labels on vectors and halos (`Labels`), and no report shows them.
-/

namespace HaloVector

/-! ## Objects -/

/-- What a rank has under a name. -/
inductive Object
  | nothing
  | vector (part : VectorPart)
  | halo (halo : Halo)

/-- The objects of a rank. -/
abbrev Memory := Nat → Object

section report

variable {ι : Type} (T : ι → Type)

/-- What a rank learns from a call. -/
inductive Report
  /-- There was no such object. -/
  | absent
  | failed (e : VectorError)
  | done
  /-- What became of a vector. A failed assembly leaves a vector, too. -/
  | vector (outcome : Except VectorError Unit) (extents : Extents) (values ghosts : List Scalar)
  /-- The tags of the halo are left out. -/
  | halo (halo : Halo)
  | plan (plan : Plan)
  | buffer (kind : ι) (entries : List (T kind))
  | mode (mode : QueueMode)
  | norm (value : Scalar)

variable {T}

def VectorPart.report (part : VectorPart) (outcome : Except VectorError Unit) : Report T :=
  .vector outcome part.shard.extents part.shard.values part.ghosts

def Object.report : Object → Report T
  | nothing => .absent
  | vector part => part.report (.ok ())
  | halo h => .halo { h with tags := default }

end report

/-! ## Calls -/

/-- How many updates a call can queue. -/
def QueueCall.length : QueueCall → Nat
  | one _ _ => 1
  | batch _ ids _ => ids.length

/-- The updates that some calls queue fit into one buffer. -/
def QueueCall.Addressable (calls : List QueueCall) : Prop :=
  totalCount (calls.map length) * Update.recordSize ≤ lastIndex

instance (calls : List QueueCall) : Decidable (QueueCall.Addressable calls) :=
  inferInstanceAs (Decidable (_ ≤ _))

/-- One call of a session, with the arguments of each rank. -/
inductive Call (size : Nat) {ι : Type} (T : ι → Type)
  | makeVector (name : Nat) (sizes globals : Nat → UInt64)
  | makeHalo (name : Nat) (sizes globals : Nat → UInt64) (ids : Nat → List UInt64)
  | makeGhosted (name : Nat) (sizes globals : Nat → UInt64) (ids : Nat → List UInt64)
  /-- Every rank has its own extents. They only have to be for the group. -/
  | vectorOver (name : Nat) (extents : Nat → Extents)
      (ranks : ∀ rank < size, (extents rank).numRanks = size)
  | haloOver (name : Nat) (extents : Nat → Extents) (ids : Nat → List UInt64)
  | ghostedOver (name halo : Nat)
  | buildPlan (extents : Nat → Extents) (ids : Nat → List UInt64)
  | write (name : Nat) (values : Nat → List Scalar)
  /-- Every rank queues updates and then assembles. -/
  | assemble (name : Nat) (calls : Nat → List QueueCall)
      (small : ∀ rank < size, QueueCall.Addressable (calls rank))
  | refresh (name : Nat) (kind : ι) (owned ghosts : Nat → List (T kind))
  | refreshBuffer (name : Nat) (kind : ι) (buffers : Nat → List (T kind))
  | updateGhosts (name : Nat)
  | norm (name : Nat) (which : Nat → Norm)
  | agreeOnMode (modes : Nat → QueueMode)
  | agreeOnOutcome (operations : Nat → String) (outcomes : Nat → Except VectorError Unit)
  | barrier

section run

variable {size : Nat} {ι : Type} {T : ι → Type} [∀ i, Cell (T i)]

/-- Keeps what was made under a name. After a failure there is nothing. -/
def Memory.keep (memory : Memory) (name : Nat) : Except VectorError Object → Memory × Report T
  | .ok object => (Function.update memory name object, object.report)
  | .error e => (Function.update memory name .nothing, .failed e)

/-- Keeps a changed vector. After a failure it stays as it was. -/
def Memory.change (memory : Memory) (name : Nat) :
    Except VectorError VectorPart → Memory × Report T
  | .ok part => memory.keep name (.ok (.vector part))
  | .error e => (memory, .failed e)

/-- Leaves the memory as it is. -/
def Memory.tell {α : Type} (memory : Memory) (report : α → Report T) :
    Except VectorError α → Memory × Report T
  | .ok value => (memory, report value)
  | .error e => (memory, .failed e)

omit [∀ i, Cell (T i)] in
theorem Memory.tell_eq {α : Type} (memory other : Memory) (report : α → Report T)
    (outcome : Except VectorError α) :
    memory.tell report outcome = (memory, (other.tell report outcome).2) := by
  cases outcome with
  | ok value => rfl
  | error e => rfl

/-- Works on the vector under a name, if there is one. -/
def Memory.onVector (memory : Memory) (name : Nat)
    (work : VectorPart → Program (Memory × Report T)) : Program (Memory × Report T) :=
  match memory name with
  | .vector part => work part
  | _ => pure (memory, .absent)

/-- Works on the halo under a name, if there is one. -/
def Memory.onHalo (memory : Memory) (name : Nat)
    (work : Halo → Program (Memory × Report T)) : Program (Memory × Report T) :=
  match memory name with
  | .halo halo => work halo
  | _ => pure (memory, .absent)

/-- The part of one rank in a call. -/
def Call.run (tags : VectorTags) (rank : Nat) (memory : Memory) :
    Call size T → Program (Memory × Report T)
  | makeVector name sizes globals => do
    let made ← (Shard.create (.member rank size) (sizes rank) (globals rank) tags).run
    pure (memory.keep name (made.map fun shard => .vector (.plain shard)))
  | makeHalo name sizes globals ids => do
    let made ← (Halo.create (.member rank size) (sizes rank) (globals rank) (ids rank)
      tags.halo).run
    pure (memory.keep name (made.map .halo))
  | makeGhosted name sizes globals ids => do
    let made ← (GhostedShard.create (.member rank size) (sizes rank) (globals rank) (ids rank)
      tags).run
    pure (memory.keep name (made.map fun vector => .vector (.ghosted vector)))
  | vectorOver name extents _ =>
    pure (memory.keep name ((Shard.ofExtents (.member rank size) (extents rank) tags).map
      fun shard => .vector (.plain shard)))
  | haloOver name extents ids => do
    let made ← (Halo.ofExtents (.member rank size) (extents rank) (ids rank) tags.halo).run
    pure (memory.keep name (made.map .halo))
  | ghostedOver name source => memory.onHalo source fun halo =>
    pure (memory.keep name (.ok (.vector (.ghosted (.ofHalo halo tags)))))
  | buildPlan extents ids => do
    let made ← (Plan.build (.member rank size) (extents rank) (ids rank) tags.halo.plan).run
    pure (memory.tell .plan made)
  | write name values => memory.onVector name fun part =>
    pure (memory.change name ((part.shard.setValues (values rank)).map part.withShard))
  | assemble name calls _ => memory.onVector name fun part => do
    let attempt ← DistributedVector.assembleQueued (part.afterCalls (calls rank))
      (.member rank size)
    pure (Function.update memory name (.vector attempt.state),
      attempt.state.report attempt.outcome)
  | refresh name kind owned ghosts => memory.onHalo name fun halo => do
    let fresh ← (halo.refresh (.member rank size) (owned rank) (ghosts rank)).run
    pure (memory.tell (.buffer kind) fresh)
  | refreshBuffer name kind buffers => memory.onHalo name fun halo => do
    let fresh ← (halo.refreshBuffer (.member rank size) (buffers rank)).run
    pure (memory.tell (.buffer kind) fresh)
  | updateGhosts name => memory.onVector name fun part => do
    let fresh ← (DistributedVector.updateGhosts part (.member rank size)).run
    pure (memory.change name fresh)
  | norm name which => memory.onVector name fun part => do
    let value ← (part.shard.norm (.member rank size) (which rank)).run
    pure (memory.tell .norm value)
  | agreeOnMode modes => do
    let mode ← (HaloVector.agreeOnMode (.member rank size) (modes rank)).run
    pure (memory.tell .mode mode)
  | agreeOnOutcome operations outcomes => do
    let agreed ← (HaloVector.agreeOnOutcome (.member rank size) (outcomes rank)
      (operations rank)).run
    pure (memory.tell (fun _ => .done) agreed)
  | barrier => do
    let passed ← (HaloVector.barrier (.member rank size)).run
    pure (memory.tell (fun _ => .done) passed)

/-- The part of one rank in a session, where every call has its own tags. -/
def runSession (rank : Nat) : List (Call size T) → (Nat → VectorTags) → Memory →
    Program (List (Report T))
  | [], _, _ => pure []
  | call :: rest, tags, memory => do
    let (memory, report) ← call.run (tags 0) rank memory
    let reports ← runSession rank rest (fun position => tags (position + 1)) memory
    pure (report :: reports)

/-- A group of ranks that start with nothing. -/
def startSession (size : Nat) (calls : List (Call size T)) (tags : Nat → VectorTags) :
    Group (List (Report T)) :=
  .ofRanks size fun rank => runSession rank calls tags fun _ => .nothing

end run

/-! ## Labels -/

/-- The tags of an object. A vector has those of its halo beside its own. -/
structure Labels where
  vector : VectorTags
  halo : HaloTags

instance : Inhabited Labels := ⟨⟨default, default⟩⟩

namespace VectorPart

/-- The same part with other tags. -/
def label (l : Labels) : VectorPart → VectorPart
  | plain shard => plain { shard with tags := l.vector }
  | ghosted vector =>
    ghosted {
      vector with
      shard := { vector.shard with tags := l.vector }
      halo := { vector.halo with tags := l.halo } }

variable (l : Labels) (part : VectorPart)

@[simp] theorem shard_label : (part.label l).shard = { part.shard with tags := l.vector } := by
  cases part <;> rfl

@[simp] theorem ghosts_label : (part.label l).ghosts = part.ghosts := by
  cases part <;> rfl

theorem withShard_label (shard : Shard) :
    (part.label l).withShard { shard with tags := l.vector } = (part.withShard shard).label l := by
  cases part <;> rfl

@[simp] theorem report_label {ι : Type} {T : ι → Type} (outcome : Except VectorError Unit) :
    ((part.label l).report outcome : Report T) = part.report outcome := by
  simp only [report, shard_label, ghosts_label]

end VectorPart

/-! ## Families -/

/-- What the ranks of a group have under one name, apart from tags. -/
inductive Family
  | nothing
  | vector (parts : Nat → VectorPart)
  | halo (halos : Nat → Halo)

/-- A shard in its place, with nothing queued. -/
structure Shard.Seated (size rank : Nat) (s : Shard) : Prop where
  topology : s.topology = ⟨rank, size⟩
  wellFormed : s.WellFormed
  unqueued : s.queue = .empty

/-- The parts of a vector either have no ghosts or the halos of one construction. -/
def VectorPart.Linked (size : Nat) (parts : Nat → VectorPart) : Prop :=
  (∀ rank < size, ∃ shard, parts rank = .plain shard) ∨
  ∃ extents ids halos, Halo.Together size extents ids default halos ∧
    ∀ rank < size, ∃ shard ghosts, parts rank = .ghosted ⟨shard, halos rank, ghosts⟩ ∧
      shard.extents = extents rank ∧ ghosts.length = (ids rank).length

namespace Family

/-- What one rank has, with tags. -/
def onRank (l : Labels) (rank : Nat) : Family → Object
  | nothing => .nothing
  | vector parts => .vector ((parts rank).label l)
  | halo halos => .halo { halos rank with tags := l.halo }

/-- What was made together works together. -/
def Linked (size : Nat) : Family → Prop
  | nothing => True
  | vector parts => (∀ rank < size, (parts rank).shard.Seated size rank) ∧
      VectorPart.Linked size parts
  | halo halos => ∃ extents ids, Halo.Together size extents ids default halos

/-- The tags of an object are not reported. -/
theorem report_onRank {ι : Type} {T : ι → Type} (f : Family) (one other : Labels) (rank : Nat) :
    ((f.onRank one rank).report : Report T) = (f.onRank other rank).report := by
  cases f with
  | nothing => rfl
  | vector parts =>
    exact (VectorPart.report_label one _ _).trans (VectorPart.report_label other _ _).symm
  | halo halos => rfl

end Family

/-- The memory of a rank of a group. -/
def Memory.of (families : Nat → Family) (labels : Nat → Labels) (rank : Nat) : Memory :=
  fun name => (families name).onRank (labels name) rank

theorem Memory.of_update (families : Nat → Family) (labels : Nat → Labels) (rank name : Nat)
    (f : Family) (l : Labels) :
    Memory.of (Function.update families name f) (Function.update labels name l) rank =
      Function.update (Memory.of families labels rank) name (f.onRank l rank) := by
  funext other
  by_cases same : other = name
  · subst same
    simp [Memory.of]
  · simp [Memory.of, same]

end HaloVector
