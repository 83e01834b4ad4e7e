import HaloVector.Mailbox

/-!
# Groups

The ranks of a group run their programs side by side and share one mailbox. At any
moment any rank that is able to may take the next step; a rank is unable to when it
has ended or waits on an empty queue. A waiting rank goes on as soon as a message is
there, and sending never blocks.

* `Group.Step` relates a group to all groups that one step of some rank can lead to.
* `Group.run` takes the steps of one particular schedule until no rank can go on.
  Programs are finite trees, and each step moves one rank to a child of its
  program, so every schedule ends.
-/

namespace HaloVector

open Program in
/-- One program is what another goes on with after its first instruction. -/
inductive Program.Child {α : Type} : Program α → Program α → Prop
  | log {level text next} : Child next (log level text next)
  | post {source tag length next} (ticket) : Child (next ticket) (post source tag length next)
  | send {target tag data next} : Child next (send target tag data next)
  | await {ticket next} (reply) : Child (next reply) (await ticket next)
  | flush {target tag next} : Child next (flush target tag next)

theorem Program.child_wellFounded {α : Type} : WellFounded (Child (α := α)) := by
  constructor
  intro p
  induction p with
  | done | halt => exact ⟨_, fun _ child => nomatch child⟩
  | log level text next ih => exact ⟨_, fun _ child => by cases child; exact ih⟩
  | post source tag length next ih => exact ⟨_, fun _ child => by cases child; exact ih _⟩
  | send target tag data next ih => exact ⟨_, fun _ child => by cases child; exact ih⟩
  | await ticket next ih => exact ⟨_, fun _ child => by cases child; exact ih _⟩
  | flush target tag next ih => exact ⟨_, fun _ child => by cases child; exact ih⟩

/-- The programs of a group, by rank, and the messages on their way. -/
structure Group (α : Type) where
  programs : List (Program α)
  mailbox : Mailbox

namespace Group

variable {α : Type}

/-! ## Steps -/

/-- A group whose ranks have not started. -/
def ofPrograms (programs : List (Program α)) : Group α := ⟨programs, .empty⟩

/-- The next step of one program of a group, if the rank can take it. -/
def stepOf? (mailbox : Mailbox) (rank : Nat) : Program α → Option (Program α × Mailbox)
  | .done _ | .halt _ => none
  | .log _ _ next => some (next, mailbox)
  | .post source tag _ next => some (next ⟨source, tag, 0⟩, mailbox)
  | .send target tag data next => some (next, mailbox.put ⟨rank, target, tag⟩ data)
  | .await ticket next =>
    (mailbox.take? ⟨ticket.source, rank, ticket.tag⟩).map fun (data, rest) =>
      (next (some data), rest)
  | .flush _ _ next => some (next, mailbox)

/-- The group after the next step of one rank, if that rank can take one. -/
def advance? (g : Group α) (rank : Nat) : Option (Group α) := do
  let program ← g.programs[rank]?
  let (next, mailbox) ← stepOf? g.mailbox rank program
  some ⟨g.programs.set rank next, mailbox⟩

/-- Some rank takes one step. -/
def Step (g next : Group α) : Prop := ∃ rank, g.advance? rank = some next

/-- No rank can take a step. -/
def IsStuck (g : Group α) : Prop := ∀ rank, g.advance? rank = none

/-- Some number of steps, of any ranks, leads from one group to another. -/
inductive Reaches : Group α → Group α → Prop
  | refl (g : Group α) : Reaches g g
  | step {g next last : Group α} : Step g next → Reaches next last → Reaches g last

/-! ## Running -/

/-- One rank has moved on to a child of its program. -/
def Progress (later earlier : List (Program α)) : Prop :=
  ∃ (rank : Nat) (before after : Program α),
    earlier[rank]? = some before ∧ Program.Child after before ∧ later = earlier.set rank after

theorem progress_acc_cons {p : Program α} {ps : List (Program α)}
    (head : Acc Program.Child p) (tail : Acc Progress ps) : Acc Progress (p :: ps) := by
  induction head generalizing ps with
  | intro p _ ihHead =>
    induction tail with
    | intro ps tailAcc ihTail =>
      constructor
      rintro _ ⟨rank, before, after, found, child, rfl⟩
      cases rank with
      | zero =>
        cases found
        exact ihHead after child ⟨ps, tailAcc⟩
      | succ rank => exact ihTail _ ⟨rank, before, after, found, child, rfl⟩

theorem progress_wellFounded : WellFounded (Progress (α := α)) := by
  constructor
  intro programs
  induction programs with
  | nil => exact ⟨_, fun _ ⟨_, _, _, found, _⟩ => nomatch found⟩
  | cons p ps ih => exact progress_acc_cons (Program.child_wellFounded.apply p) ih

instance : WellFoundedRelation (List (Program α)) := ⟨Progress, progress_wellFounded⟩

theorem child_of_stepOf? {mailbox rest : Mailbox} {rank : Nat} {p next : Program α}
    (stepped : stepOf? mailbox rank p = some (next, rest)) : Program.Child next p := by
  cases p with
  | done | halt => cases stepped
  | log => cases stepped; exact .log
  | post => cases stepped; exact .post _
  | send => cases stepped; exact .send
  | await =>
    obtain ⟨⟨data, left⟩, _, same⟩ := Option.map_eq_some_iff.1 stepped
    cases same
    exact .await _
  | flush => cases stepped; exact .flush

theorem progress_of_advance? {g next : Group α} {rank : Nat}
    (advanced : g.advance? rank = some next) : Progress next.programs g.programs := by
  obtain ⟨program, found, rest⟩ := Option.bind_eq_some_iff.1 advanced
  obtain ⟨⟨after, mailbox⟩, stepped, same⟩ := Option.bind_eq_some_iff.1 rest
  cases same
  exact ⟨rank, program, after, found, child_of_stepOf? stepped, rfl⟩

/-- The step of the lowest rank that can take one. -/
def step? (g : Group α) : Option (Group α) :=
  (List.range g.programs.length).findSome? g.advance?

theorem step_of_step? {g next : Group α} (stepped : g.step? = some next) : Step g next := by
  obtain ⟨rank, _, advanced⟩ := List.exists_of_findSome?_eq_some stepped
  exact ⟨rank, advanced⟩

theorem advance?_eq_none_of_length_le {g : Group α} {rank : Nat}
    (outside : g.programs.length ≤ rank) : g.advance? rank = none := by
  simp [advance?, List.getElem?_eq_none outside]

/-- The lowest rank finds no step only if no rank has one. -/
theorem step?_eq_none_iff {g : Group α} : g.step? = none ↔ g.IsStuck := by
  rw [step?, List.findSome?_eq_none_iff]
  constructor
  · intro blocked rank
    by_cases inside : rank < g.programs.length
    · exact blocked rank (List.mem_range.2 inside)
    · exact advance?_eq_none_of_length_le (Nat.not_lt.1 inside)
  · exact fun stuck rank _ => stuck rank

/-- Lets the lowest rank that can go on take its next step until none can. -/
def run (g : Group α) : Group α :=
  match _stepped : g.step? with
  | none => g
  | some next => next.run
termination_by g.programs
decreasing_by
  obtain ⟨rank, advanced⟩ := step_of_step? _stepped
  exact progress_of_advance? advanced

/-- The schedule of `run` is one of those that there are. -/
theorem reaches_run (g : Group α) : Reaches g g.run := by
  fun_induction run g with
  | case1 g stuck => exact .refl g
  | case2 g next stepped ih => exact .step (step_of_step? stepped) ih

theorem isStuck_run (g : Group α) : g.run.IsStuck := by
  fun_induction run g with
  | case1 g stuck => exact step?_eq_none_iff.1 stuck
  | case2 g next stepped ih => exact ih

/-! ## Results -/

/-- The value of a rank that has ended with one. -/
def value? (g : Group α) (rank : Nat) : Option α :=
  match g.programs[rank]? with
  | some (.done value) => some value
  | _ => none

end Group
end HaloVector
