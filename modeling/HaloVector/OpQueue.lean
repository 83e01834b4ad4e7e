import HaloVector.Scalar
import HaloVector.VectorError

/-!
# Operation queues

A rank queues updates of entries, its own or those of other ranks, until the next
assembly takes them all. A queue holds sets or adds, never both: an update of the
other kind is refused, and marks the queue as mixed until it is drained.
-/

namespace HaloVector

/-- A value for the entry with the given global id. -/
structure Update where
  id : UInt64
  value : Scalar
deriving DecidableEq, Repr

/-- The updates that wait on one rank. -/
structure OpQueue where
  sets : List Update
  adds : List Update
  /-- An update of the other kind was refused since the last drain. -/
  mixed : Bool
deriving DecidableEq, Repr

/-- What an assembly takes from a queue. -/
structure Drained where
  mode : QueueMode
  updates : List Update
deriving DecidableEq, Repr

namespace OpQueue

def empty : OpQueue := ⟨[], [], false⟩

instance : Inhabited OpQueue := ⟨empty⟩

/-- The waiting updates of one kind. -/
def pending (q : OpQueue) : OpKind → List Update
  | .set => q.sets
  | .add => q.adds

def append (q : OpQueue) (kind : OpKind) (updates : List Update) : OpQueue :=
  match kind with
  | .set => { q with sets := q.sets ++ updates }
  | .add => { q with adds := q.adds ++ updates }

/-- Queues one update on behalf of `rank`, unless the other kind is waiting. -/
def push (q : OpQueue) (rank : Nat) (kind : OpKind) (update : Update) : Attempt OpQueue :=
  let waiting := q.pending kind.other
  if waiting.isEmpty then ⟨q.append kind [update], .ok ()⟩
  else
    ⟨{ q with mixed := true },
      .error (.mixedOperationModes rank kind.mode kind.other.mode waiting.length)⟩

/-- Queues updates one after the other up to the first that is refused. -/
def pushAll (q : OpQueue) (rank : Nat) (kind : OpKind) : List Update → Attempt OpQueue
  | [] => ⟨q, .ok ()⟩
  | update :: rest =>
    let first := q.push rank kind update
    match first.outcome with
    | .ok () => first.state.pushAll rank kind rest
    | .error _ => first

def mode (q : OpQueue) : QueueMode :=
  if q.mixed then .mixed
  else match q.sets.isEmpty, q.adds.isEmpty with
    | true, true => .empty
    | false, true => .set
    | true, false => .add
    | false, false => .mixed

def length (q : OpQueue) : Nat := q.sets.length + q.adds.length

def isEmpty (q : OpQueue) : Bool := q.length = 0

/-- The waiting updates with their mode. A mixed queue gives up its updates. -/
def drained (q : OpQueue) : Drained :=
  match q.mode with
  | .set => ⟨.set, q.sets⟩
  | .add => ⟨.add, q.adds⟩
  | mode => ⟨mode, []⟩

/-- Takes every update; the queue starts afresh. -/
def drain (q : OpQueue) : Drained × OpQueue := (q.drained, empty)

@[simp] theorem length_empty : empty.length = 0 := rfl

@[simp] theorem drained_mode (q : OpQueue) : q.drained.mode = q.mode := by
  unfold drained
  split <;> simp_all

theorem pending_append (q : OpQueue) (kind : OpKind) (updates : List Update) :
    (q.append kind updates).pending kind = q.pending kind ++ updates := by
  cases kind <;> rfl

theorem length_append (q : OpQueue) (kind : OpKind) (updates : List Update) :
    (q.append kind updates).length = q.length + updates.length := by
  cases kind <;> simp [append, length] <;> omega

end OpQueue
end HaloVector
