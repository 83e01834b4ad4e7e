import HaloVector.Program.Script
import HaloVector.Assembly
import HaloVector.Proofs.Delivery

/-!
# Answers

A program may be run over any communicator. The peers need not be ranks of the same program:
every wait may end with any bytes or with none, whatever was sent and posted before.

* `Transport` is a communicator, as a machine that sees each use that is made of it, and
  `Program.runOver` is a run over it. A script is one of them (`Program.runOver_script`).
* `Program.Ensures` says what holds at the end of a program for all answers to it, together with
  the messages that were delivered; above all, that it does not halt. `Program.Ensures.runOver`
  takes it to every transport.
* `Collective.Ensures` is the same for programs that may fail, and asks for nothing where they do.
-/

namespace HaloVector

/-- The messages that were delivered, each with the receive that it ended. -/
abbrev Deliveries : Type := List (Ticket × Bytes)

/-- A message came from a source under a tag. -/
def Deliveries.Has (delivered : Deliveries) (source : Nat) (tag : Tag) (message : Bytes) : Prop :=
  ∃ ticket, (ticket, message) ∈ delivered ∧ ticket.source = source ∧ ticket.tag = tag

theorem Deliveries.Has.mono {delivered more : Deliveries} {source : Nat} {tag : Tag}
    {message : Bytes} (came : delivered.Has source tag message) (within : delivered ⊆ more) :
    more.Has source tag message := by
  obtain ⟨ticket, member, known⟩ := came
  exact ⟨ticket, within member, known⟩

/-! ## Transports -/

/-- What answers the uses that a program makes of its communicator. -/
structure Transport (σ : Type) where
  /-- The number of the ticket for a posted receive. -/
  post : (source : Nat) → Tag → (length : Nat) → σ → Nat × σ
  send : (target : Nat) → Tag → Bytes → σ → σ
  await : Ticket → σ → Option Bytes × σ
  flush : (target : Nat) → Tag → σ → σ

namespace Program

variable {α β σ : Type}

/-- How a program ends over a transport, and what is delivered until then. -/
def runOver (t : Transport σ) : Program α → σ → Ending α × Deliveries
  | done value, _ => (.finished value, [])
  | halt why, _ => (.halted why, [])
  | log _ _ next, s => next.runOver t s
  | post source tag length next, s =>
    let (number, later) := t.post source tag length s
    (next ⟨source, tag, number⟩).runOver t later
  | send target tag data next, s => next.runOver t (t.send target tag data s)
  | await ticket next, s =>
    let (reply, later) := t.await ticket s
    let (ending, delivered) := (next reply).runOver t later
    (ending, reply.toList.map (ticket, ·) ++ delivered)
  | flush target tag next, s => next.runOver t (t.flush target tag s)

end Program

/-- The transport that follows a script. -/
def Script.transport : Transport Script where
  post source tag _ s := ((s.claim source tag).1.number, (s.claim source tag).2)
  send _ _ _ s := s
  await ticket s := (s.reply ticket, s)
  flush _ _ s := s

namespace Program

variable {α β σ : Type}

theorem runOver_script (p : Program α) (s : Script) :
    (p.runOver Script.transport s).1 = p.runScript s := by
  induction p generalizing s with
  | done | halt => rfl
  | log level text next ih => exact ih s
  | post source tag length next ih => exact ih _ _
  | send target tag data next ih => exact ih s
  | await ticket next ih => exact ih _ s
  | flush target tag next ih => exact ih s

/-! ## For all answers -/

/-- The program comes to an end with a value whatever it is answered, and this holds of what was
delivered and the value. -/
def Ensures : Program α → (Deliveries → α → Prop) → Prop
  | done value, good => good [] value
  | halt _, _ => False
  | log _ _ next, good => next.Ensures good
  | post source tag _ next, good => ∀ number, (next ⟨source, tag, number⟩).Ensures good
  | send _ _ _ next, good => next.Ensures good
  | await ticket next, good => ∀ reply, (next reply).Ensures fun delivered =>
    good (reply.toList.map (ticket, ·) ++ delivered)
  | flush _ _ next, good => next.Ensures good

theorem Ensures.runOver {p : Program α} {good : Deliveries → α → Prop} (ensured : p.Ensures good)
    (t : Transport σ) (s : σ) :
    ∃ value, (p.runOver t s).1 = .finished value ∧ good (p.runOver t s).2 value := by
  induction p generalizing good s with
  | done value => exact ⟨value, rfl, ensured⟩
  | halt why => exact ensured.elim
  | log level text next ih => exact ih ensured s
  | post source tag length next ih => exact ih _ (ensured _) _
  | send target tag data next ih => exact ih ensured _
  | await ticket next ih => exact ih _ (ensured _) _
  | flush target tag next ih => exact ih ensured _

theorem Ensures.mono {p : Program α} {good better : Deliveries → α → Prop}
    (ensured : p.Ensures better) (weaker : ∀ delivered value, better delivered value →
      good delivered value) : p.Ensures good := by
  induction p generalizing good better with
  | done value => exact weaker _ _ ensured
  | halt why => exact ensured
  | log level text next ih => exact ih ensured weaker
  | post source tag length next ih => exact fun number => ih _ (ensured number) weaker
  | send target tag data next ih => exact ih ensured weaker
  | await ticket next ih => exact fun reply => ih _ (ensured reply) fun _ => weaker _
  | flush target tag next ih => exact ih ensured weaker

theorem Ensures.bind {p : Program β} {f : β → Program α} {middle : Deliveries → β → Prop}
    {good : Deliveries → α → Prop} (first : p.Ensures middle)
    (second : ∀ front value, middle front value →
      (f value).Ensures fun back => good (front ++ back)) : (p.bind f).Ensures good := by
  induction p generalizing good middle with
  | done value => exact second [] value first
  | halt why => exact first
  | log level text next ih => exact ih first second
  | post source tag length next ih => exact fun number => ih _ (first number) second
  | send target tag data next ih => exact ih first second
  | await ticket next ih =>
    refine fun reply => ih _ (first reply) fun front value known => ?_
    exact (second _ value known).mono fun back _ holds => by rwa [List.append_assoc] at holds
  | flush target tag next ih => exact ih first second

end Program

/-! ## Programs that may fail -/

namespace Collective

variable {α β : Type} {good : Deliveries → α → Prop}

/-- The program comes to an end whatever it is answered; and if that is no error, this holds of
what was delivered and the value. -/
def Ensures (p : Collective α) (good : Deliveries → α → Prop) : Prop :=
  p.run.Ensures fun delivered outcome => ∀ value, outcome = .ok value → good delivered value

theorem Ensures.mono {p : Collective α} {better : Deliveries → α → Prop}
    (ensured : p.Ensures better) (weaker : ∀ delivered value, better delivered value →
      good delivered value) : p.Ensures good :=
  Program.Ensures.mono ensured fun _ _ known value came => weaker _ _ (known value came)

theorem Ensures.bind {p : Collective β} {f : β → Collective α} {middle : Deliveries → β → Prop}
    (first : p.Ensures middle)
    (second : ∀ front value, middle front value →
      (f value).Ensures fun back => good (front ++ back)) : (p >>= f).Ensures good := by
  unfold Ensures
  rw [run_bind]
  refine Program.Ensures.bind first fun front outcome known => ?_
  cases outcome with
  | error e => exact nofun
  | ok value => exact second front value (known value rfl)

theorem ensures_ofExcept (outcome : Except VectorError α) :
    (ofExcept outcome).Ensures fun delivered value => delivered = [] ∧ outcome = .ok value :=
  fun _ came => ⟨rfl, came⟩

theorem ensures_pure {value : α} (fine : good [] value) :
    (pure value : Collective α).Ensures good := fun _ same => Except.ok.inj same ▸ fine

theorem ensures_throw (e : VectorError) : (throw e : Collective α).Ensures good := nofun

theorem ensures_inBounds {found : Option α} {value : α} (here : found = some value) :
    (inBounds found).Ensures fun delivered result => delivered = [] ∧ result = value := by
  subst here
  exact ensures_pure ⟨rfl, rfl⟩

theorem ensures_ofAttempt {σ : Type} {good : Deliveries → σ → Prop} {p : Program (Attempt σ)}
    (ensured : p.Ensures fun delivered attempt =>
      attempt.outcome = .ok () → good delivered attempt.state) : (ofAttempt p).Ensures good := by
  refine Program.Ensures.bind ensured fun front attempt known => ?_
  intro value came
  rw [List.append_nil]
  cases reported : attempt.outcome with
  | error e =>
    rw [reported] at came
    cases came
  | ok =>
    rw [reported] at came
    cases came
    exact known reported

theorem ensures_log (level : Level) (text : String) :
    (log level text).Ensures fun delivered _ => delivered = [] := fun _ _ => rfl

theorem ensures_forM_log {γ : Type} (level : Level) (text : γ → String) (items : List γ) :
    (items.forM fun item => log level (text item)).Ensures fun delivered _ => delivered = [] := by
  induction items with
  | nil => exact ensures_pure rfl
  | cons item rest ih =>
    refine (ensures_log level _).bind fun front _ none_yet => ?_
    subst none_yet
    exact ih

end Collective

end HaloVector
