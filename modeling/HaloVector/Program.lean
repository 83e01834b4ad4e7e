import HaloVector.VectorError
import HaloVector.Tag
import HaloVector.Wire

/-!
# Programs of a rank

What one rank does while it takes part in a group, as a finite tree of
instructions. A program posts receives and waits for them, sends messages, writes
log lines, and ends with a value or by halting. It says nothing about where
messages come from: the same program can be run alone, against scripted replies,
or together with the programs of other ranks.

Programs form a lawful monad. `Program.offline` cuts a program off from all
messages, and `Program.recorded` makes what a program does visible in its value.
-/

namespace HaloVector

/-! ## Instructions -/

/-- How urgent a log line is, most urgent first. -/
inductive Level
  | error
  | warn
  | info
  | debug
  | trace
deriving DecidableEq, Repr

namespace Level

def urgency : Level → Nat
  | error => 1
  | warn => 2
  | info => 3
  | debug => 4
  | trace => 5

/-- The level is at least as urgent as `limit`. -/
def within (level limit : Level) : Bool := level.urgency ≤ limit.urgency

def text : Level → String
  | error => "ERROR"
  | warn => "WARN"
  | info => "INFO"
  | debug => "DEBUG"
  | trace => "TRACE"

end Level

/-- A receive that was posted. The number tells apart receives of one source and tag
where that matters. -/
structure Ticket where
  source : Nat
  tag : Tag
  number : Nat
deriving DecidableEq, Repr

/-- Why a program ended without a value. -/
inductive Halt
  /-- The whole group is taken down. -/
  | abort (rank size code : Nat)
  /-- The process is ended, where there is no group to take down. -/
  | processEnded
  /-- A value broke its own rules; the rank is that which built it, if known. -/
  | brokenInvariant (rank : Option Nat) (label : String) (cause : VectorError)
  /-- An entry was asked for that a buffer does not have. -/
  | outOfBounds
deriving DecidableEq, Repr

/-- What is said about the end of a program, if anything. -/
def Halt.text? : Halt → Option String
  | abort rank size code => some s!"rank {rank} of {size} aborted with code {code}"
  | brokenInvariant none label cause =>
    some s!"[ghost-vec invariants] {label}: {cause.message}"
  | brokenInvariant (some rank) label cause =>
    some s!"[ghost-vec invariants] rank {rank}: {label}: {cause.message}"
  | processEnded | outOfBounds => none

/-- The instructions of one rank, each with what follows it. -/
inductive Program (α : Type) : Type where
  | done (value : α)
  | halt (why : Halt)
  | log (level : Level) (text : String) (next : Program α)
  /-- Announces a receive of `length` bytes. -/
  | post (source : Nat) (tag : Tag) (length : Nat) (next : Ticket → Program α)
  /-- Hands a message to the transport, which never blocks. -/
  | send (target : Nat) (tag : Tag) (data : Bytes) (next : Program α)
  /-- Waits for a posted receive; a transport that delivers nothing answers `none`. -/
  | await (ticket : Ticket) (next : Option Bytes → Program α)
  /-- Waits until a message has left. -/
  | flush (target : Nat) (tag : Tag) (next : Program α)

namespace Program

variable {α β γ : Type}

/-! ## Sequencing -/

protected def bind : Program α → (α → Program β) → Program β
  | done value, f => f value
  | halt why, _ => halt why
  | log level text next, f => log level text (next.bind f)
  | post source tag length next, f =>
    post source tag length fun ticket => (next ticket).bind f
  | send target tag data next, f => send target tag data (next.bind f)
  | await ticket next, f => await ticket fun reply => (next reply).bind f
  | flush target tag next, f => flush target tag (next.bind f)

instance : Monad Program where
  pure := done
  bind := Program.bind

@[simp] theorem pure_eq (value : α) : (pure value : Program α) = done value := rfl
@[simp] theorem bind_eq (p : Program α) (f : α → Program β) : p >>= f = p.bind f := rfl

theorem bind_done (p : Program α) : p.bind done = p := by
  induction p with
  | done | halt => rfl
  | log level text next ih => simp [Program.bind, ih]
  | post source tag length next ih => simp [Program.bind, ih]
  | send target tag data next ih => simp [Program.bind, ih]
  | await ticket next ih => simp [Program.bind, ih]
  | flush target tag next ih => simp [Program.bind, ih]

theorem bind_assoc (p : Program α) (f : α → Program β) (g : β → Program γ) :
    (p.bind f).bind g = p.bind fun value => (f value).bind g := by
  induction p with
  | done | halt => rfl
  | log level text next ih => simp [Program.bind, ih]
  | post source tag length next ih => simp [Program.bind, ih]
  | send target tag data next ih => simp [Program.bind, ih]
  | await ticket next ih => simp [Program.bind, ih]
  | flush target tag next ih => simp [Program.bind, ih]

instance : LawfulMonad Program :=
  LawfulMonad.mk' Program bind_done (fun _ _ => rfl) bind_assoc

/-! ## Single instructions -/

def writeLog (level : Level) (text : String) : Program Unit := log level text (done ())

def postReceive (source : Nat) (tag : Tag) (length : Nat) : Program Ticket :=
  post source tag length done

def sendMessage (target : Nat) (tag : Tag) (data : Bytes) : Program Unit :=
  send target tag data (done ())

def awaitReceive (ticket : Ticket) : Program (Option Bytes) := await ticket done

def flushSend (target : Nat) (tag : Tag) : Program Unit := flush target tag (done ())

/-! ## Cutting off the transport -/

/-- The program without a transport: nothing is sent, and no receive delivers. -/
def offline : Program α → Program α
  | done value => done value
  | halt why => halt why
  | log level text next => log level text next.offline
  | post source tag _ next => (next ⟨source, tag, 0⟩).offline
  | send _ _ _ next => next.offline
  | await _ next => (next none).offline
  | flush _ _ next => next.offline

/-! ## Recording -/

/-- How a program came to its end. -/
inductive Ending (α : Type)
  | finished (value : α)
  | halted (why : Halt)
deriving DecidableEq, Repr

/-- One use of the transport, as far as the program decides it. -/
inductive Call
  | posted (source : Nat) (tag : Tag) (length : Nat)
  | sent (target : Nat) (tag : Tag) (data : Bytes)
  | awaited (source : Nat) (tag : Tag)
  | flushed (target : Nat) (tag : Tag)
deriving DecidableEq, Repr

/-- Something that happened while a program ran. -/
inductive Event
  | logged (level : Level) (text : String)
  | called (call : Call)
  /-- A wait came to its end with this. -/
  | delivered (reply : Option Bytes)
deriving DecidableEq, Repr

namespace Event

/-- The log line that was written. -/
def line? : Event → Option (Level × String)
  | logged level text => some (level, text)
  | _ => none

/-- The use of the transport that was made. -/
def call? : Event → Option Call
  | called call => some call
  | _ => none

end Event

/-- Runs on with the events of the past, latest first. -/
def recordedAfter (past : List Event) : Program α → Program (Ending α × List Event)
  | done value => done (.finished value, past.reverse)
  | halt why => done (.halted why, past.reverse)
  | log level text next => next.recordedAfter (.logged level text :: past)
  | post source tag length next =>
    post source tag length fun ticket =>
      (next ticket).recordedAfter (.called (.posted source tag length) :: past)
  | send target tag data next =>
    send target tag data (next.recordedAfter (.called (.sent target tag data) :: past))
  | await ticket next =>
    await ticket fun reply =>
      (next reply).recordedAfter
        (.delivered reply :: .called (.awaited ticket.source ticket.tag) :: past)
  | flush target tag next =>
    flush target tag (next.recordedAfter (.called (.flushed target tag) :: past))

/-- The program that always ends with a value: how this one ends, and all that it did
before, in order. -/
def recorded (p : Program α) : Program (Ending α × List Event) := p.recordedAfter []

end Program

/-- A program that may fail with an error of the library instead of a value. -/
abbrev Collective (α : Type) : Type := ExceptT VectorError Program α

namespace Collective

def ofExcept {α : Type} (outcome : Except VectorError α) : Collective α :=
  ExceptT.mk (pure outcome)

def log (level : Level) (text : String) : Collective Unit :=
  ExceptT.lift (Program.writeLog level text)

/-- Halts where an entry out of bounds was needed. -/
def inBounds {α : Type} : Option α → Collective α
  | some value => pure value
  | none => ExceptT.lift (.halt .outOfBounds)

/-- Goes on with a step that reports failure beside a state that it changes anyway. -/
def ofAttempt {σ : Type} (p : Program (Attempt σ)) : Collective σ :=
  ExceptT.mk do
    let attempt ← p
    pure (attempt.outcome.map fun _ => attempt.state)

end Collective
end HaloVector
