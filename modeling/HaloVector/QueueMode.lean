/-!
# Queue modes

A deferred operation either sets an entry or adds to it. The mode of a queue says
which kind is waiting in it. Modes are ordered by their code so that the mode of
a group is the greatest mode of its ranks.
-/

namespace HaloVector

/-- What a deferred operation does to an entry. -/
inductive OpKind
  | set
  | add
deriving DecidableEq, Repr

inductive QueueMode
  | empty
  | set
  | add
  | mixed
deriving DecidableEq, Repr, Inhabited

namespace QueueMode

/-- The byte that stands for a mode in a message. -/
def code : QueueMode → UInt8
  | empty => 0
  | set => 1
  | add => 2
  | mixed => 3

def ofCode? (code : UInt8) : Option QueueMode :=
  [empty, set, add, mixed][code.toNat]?

def text : QueueMode → String
  | empty => "Empty"
  | set => "Set"
  | add => "Add"
  | mixed => "Mixed"

def ofText? (s : String) : Option QueueMode := [empty, set, add, mixed].find? (·.text = s)

def order (a b : QueueMode) : Ordering := compare a.code b.code

def max (a b : QueueMode) : QueueMode := if a.code ≤ b.code then b else a

/-- The greatest mode of a group; a group without ranks has nothing queued. -/
def greatest (modes : List QueueMode) : QueueMode := modes.foldl max empty

theorem ofCode?_code (m : QueueMode) : ofCode? m.code = some m := by
  cases m <;> rfl

theorem ofText?_text (m : QueueMode) : ofText? m.text = some m := by
  cases m <;> decide

end QueueMode

namespace OpKind

def mode : OpKind → QueueMode
  | set => .set
  | add => .add

def other : OpKind → OpKind
  | set => .add
  | add => .set

def text : OpKind → String
  | set => "SetValue"
  | add => "AddValue"

def ofText? (s : String) : Option OpKind := [set, add].find? (·.text = s)

theorem ofText?_text (kind : OpKind) : ofText? kind.text = some kind := by
  cases kind <;> decide

end OpKind
end HaloVector
