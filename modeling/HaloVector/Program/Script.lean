import HaloVector.Program

/-!
# Scripted peers

A script stands for all peers of one rank. It lists the messages that will arrive;
a receive claims the first one of its source and tag at the moment it is posted.
Against a script a program always comes to an end.
-/

namespace HaloVector

/-- One answer of a script; without data the receive completes empty-handed. -/
structure Reply where
  source : Nat
  tag : Tag
  data : Option Bytes
deriving DecidableEq, Repr

structure Script where
  /-- The replies that no receive has claimed yet. -/
  replies : List Reply
  /-- What each posted receive has claimed, by ticket number. -/
  claimed : List (Option Bytes)
deriving DecidableEq, Repr

namespace Script

/-- A script before the first receive. -/
def ofReplies (replies : List Reply) : Script := ⟨replies, []⟩

/-- The ticket of the next receive, and the script after it has claimed its reply. -/
def claim (s : Script) (source : Nat) (tag : Tag) : Ticket × Script :=
  let mine (reply : Reply) : Bool := reply.source = source ∧ reply.tag = tag
  (⟨source, tag, s.claimed.length⟩,
    ⟨s.replies.eraseP mine, s.claimed ++ [(s.replies.find? mine).bind Reply.data]⟩)

/-- What a posted receive delivers. -/
def reply (s : Script) (ticket : Ticket) : Option Bytes := s.claimed[ticket.number]?.join

end Script

/-- How a program ends when its peers follow a script. -/
def Program.runScript {α : Type} : Program α → Script → Ending α
  | done value, _ => .finished value
  | halt why, _ => .halted why
  | log _ _ next, s => next.runScript s
  | post source tag _ next, s =>
    let (ticket, rest) := s.claim source tag
    (next ticket).runScript rest
  | send _ _ _ next, s => next.runScript s
  | await ticket next, s => (next (s.reply ticket)).runScript s
  | flush _ _ next, s => next.runScript s

end HaloVector
