import Std.Data.ExtTreeMap
import HaloVector.Program

/-!
# Mailboxes

The messages on their way between the ranks of a group: one queue for each source,
target and tag, first in, first out. A mailbox is determined by its queues
(`Mailbox.ext`), so it does not matter in which order messages of different queues
were put in or taken out.
-/

namespace HaloVector

/-- A queue of messages that keep their order. -/
structure Channel where
  source : Nat
  target : Nat
  tag : Tag
deriving DecidableEq, Repr

def Channel.order : Channel → Channel → Ordering :=
  compareLex (compareOn target) (compareLex (compareOn source) (compareOn tag))

instance : Std.TransCmp Channel.order :=
  inferInstanceAs (Std.TransCmp (compareLex _ (compareLex _ _)))

instance : Std.LawfulEqCmp Channel.order where
  eq_of_compare {a b} same := by
    obtain ⟨aSource, aTarget, aTag⟩ := a
    obtain ⟨bSource, bTarget, bTag⟩ := b
    simp [Channel.order, compareLex, compareOn, Ordering.then_eq_eq] at same
    simp [same]

/-- The messages of a group that were sent and not yet received. -/
structure Mailbox where
  queues : Std.ExtTreeMap Channel (List Bytes) Channel.order
  /-- Only queues with messages are kept. -/
  ne_nil : ∀ {channel : Channel}, queues[channel]? ≠ some []

namespace Mailbox

/-- The messages waiting on a channel, oldest first. -/
def queue (m : Mailbox) (channel : Channel) : List Bytes := m.queues[channel]?.getD []

@[ext] theorem ext {m n : Mailbox} (same : ∀ channel, m.queue channel = n.queue channel) :
    m = n := by
  rcases m with ⟨left, leftFull⟩
  rcases n with ⟨right, rightFull⟩
  congr 1
  apply Std.ExtTreeMap.ext_getElem?
  intro channel
  have here := same channel
  simp only [queue] at here
  cases l : left[channel]? <;> cases r : right[channel]? <;> grind

def empty : Mailbox := ⟨∅, by simp⟩

instance : Inhabited Mailbox := ⟨empty⟩

def isEmpty (m : Mailbox) : Bool := m.queues.isEmpty

/-- Replaces the queue of one channel. -/
def setQueue (m : Mailbox) (channel : Channel) (messages : List Bytes) : Mailbox :=
  if empty : messages = [] then
    ⟨m.queues.erase channel, by
      intro other
      have kept : m.queues[other]? ≠ some [] := m.ne_nil
      grind⟩
  else
    ⟨m.queues.insert channel messages, by
      intro other
      have kept : m.queues[other]? ≠ some [] := m.ne_nil
      grind⟩

/-- Puts a message at the end of its queue. -/
def put (m : Mailbox) (channel : Channel) (message : Bytes) : Mailbox :=
  m.setQueue channel (m.queue channel ++ [message])

/-- Takes the oldest message of a queue. -/
def take? (m : Mailbox) (channel : Channel) : Option (Bytes × Mailbox) :=
  match m.queue channel with
  | [] => none
  | message :: rest => some (message, m.setQueue channel rest)

@[simp] theorem queue_empty (channel : Channel) : empty.queue channel = [] := by
  simp [queue, empty]

theorem queue_setQueue (m : Mailbox) (channel other : Channel) (messages : List Bytes) :
    (m.setQueue channel messages).queue other =
      if channel = other then messages else m.queue other := by
  unfold setQueue queue
  split <;> grind

theorem queue_put (m : Mailbox) (channel other : Channel) (message : Bytes) :
    (m.put channel message).queue other =
      if channel = other then m.queue channel ++ [message] else m.queue other :=
  queue_setQueue ..

theorem take?_eq_some_iff {m rest : Mailbox} {channel : Channel} {message : Bytes} :
    m.take? channel = some (message, rest) ↔
      ∃ later, m.queue channel = message :: later ∧ m.setQueue channel later = rest := by
  unfold take?
  split <;> grind

end Mailbox
end HaloVector
