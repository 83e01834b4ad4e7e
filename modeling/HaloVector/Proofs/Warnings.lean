import Mathlib.Logic.Function.Basic
import Mathlib.Tactic.Choose
import HaloVector.Assembly
import HaloVector.Proofs.Lockstep

/-!
# Warnings

A program that is recorded does what it did before, and tells at its end what it did. So a group
that settles also settles if it is recorded, and its warnings can be read off the records.

* `Program.recordedAfter_bind` and `Program.recordedAfter_eq` are the laws of recording.
* `Group.Settles.recorded` takes what settles to its record. Programs that log no warning
  (`Program.NeverWarns`) leave none there.
* `Group.Warns` says what the ranks of a group come to and which warnings each of them logs on the
  way; `Group.Warns.bind` puts what warns one after the other.
* `Program.Tells` is the same for one program that needs no message.
-/

namespace HaloVector

namespace Program

variable {α β : Type}

/-! ## Recording -/

/-- Goes on from the end of a record. -/
def resume (f : β → Program α) : Ending β × List Event → Program (Ending α × List Event)
  | (.finished value, events) => (f value).recordedAfter events.reverse
  | (.halted why, events) => done (.halted why, events)

/-- Programs that follow each other share one record. -/
theorem recordedAfter_bind (p : Program β) (f : β → Program α) (past : List Event) :
    (p.bind f).recordedAfter past = (p.recordedAfter past).bind (resume f) := by
  induction p generalizing past with
  | done value =>
    show (f value).recordedAfter past = (f value).recordedAfter past.reverse.reverse
    rw [List.reverse_reverse]
  | halt why => rfl
  | log level text next ih => exact ih _
  | post source tag length next ih =>
    exact congrArg (post source tag length) (funext fun _ => ih _ _)
  | send target tag data next ih => exact congrArg (send target tag data) (ih _)
  | await ticket next ih => exact congrArg (await ticket) (funext fun _ => ih _ _)
  | flush target tag next ih => exact congrArg (flush target tag) (ih _)

/-- The past comes first in a record, and changes nothing else. -/
theorem recordedAfter_eq (p : Program α) (past : List Event) :
    p.recordedAfter past =
      p.recorded.bind fun record => done (record.1, past.reverse ++ record.2) := by
  have shifted (before : List Event) : p.recordedAfter (before ++ past) =
      (p.recordedAfter before).bind fun record => done (record.1, past.reverse ++ record.2) := by
    induction p generalizing before with
    | done | halt => simp [recordedAfter, Program.bind]
    | log level text next ih => exact ih (_ :: before)
    | post source tag length next ih =>
      exact congrArg (post source tag length) (funext fun _ => ih _ (_ :: before))
    | send target tag data next ih => exact congrArg (send target tag data) (ih (_ :: before))
    | await ticket next ih =>
      exact congrArg (await ticket) (funext fun _ => ih _ (_ :: _ :: before))
    | flush target tag next ih => exact congrArg (flush target tag) (ih (_ :: before))
  exact shifted []

/-! ## Warnings in a record -/

/-- The text of an event that is a warning. -/
def Event.warning? : Event → Option String
  | logged .warn text => some text
  | _ => none

/-- The texts of the warnings that were logged. -/
def warnings (events : List Event) : List String := events.filterMap Event.warning?

theorem warnings_append (front back : List Event) :
    warnings (front ++ back) = warnings front ++ warnings back := List.filterMap_append

theorem warnings_reverse (events : List Event) :
    warnings events.reverse = (warnings events).reverse := List.filterMap_reverse

/-- Whatever the program is answered, it logs no warning. -/
def NeverWarns : Program α → Prop
  | done _ => True
  | halt _ => True
  | log level _ next => level ≠ .warn ∧ next.NeverWarns
  | post source tag _ next => ∀ number, (next ⟨source, tag, number⟩).NeverWarns
  | send _ _ _ next => next.NeverWarns
  | await _ next => ∀ reply, (next reply).NeverWarns
  | flush _ _ next => next.NeverWarns

theorem NeverWarns.bind {p : Program β} {f : β → Program α} (first : p.NeverWarns)
    (second : ∀ value, (f value).NeverWarns) : (p.bind f).NeverWarns := by
  induction p with
  | done value => exact second value
  | halt why => trivial
  | log level text next ih => exact ⟨first.1, ih first.2⟩
  | post source tag length next ih => exact fun number => ih _ (first number)
  | send target tag data next ih => exact ih first
  | await ticket next ih => exact fun reply => ih _ (first reply)
  | flush target tag next ih => exact ih first

theorem neverWarns_forM {γ : Type} {f : γ → Program Unit} (each : ∀ item, (f item).NeverWarns)
    (items : List γ) : (items.forM f).NeverWarns := by
  induction items with
  | nil => trivial
  | cons item rest ih => exact (each item).bind fun _ => ih

theorem neverWarns_mapM {γ : Type} {f : γ → Program α} (each : ∀ item, (f item).NeverWarns)
    (items : List γ) : (items.mapM f).NeverWarns := by
  induction items with
  | nil => trivial
  | cons item rest ih =>
    rw [List.mapM_cons]
    exact (each item).bind fun _ => ih.bind fun _ => trivial

theorem neverWarns_foldlM {γ : Type} {f : α → γ → Program α}
    (each : ∀ state item, (f state item).NeverWarns) (items : List γ) (state : α) :
    (items.foldlM f state).NeverWarns := by
  induction items generalizing state with
  | nil => trivial
  | cons item rest ih => exact (each state item).bind fun later => ih later

/-! ## Programs that need no message -/

/-- The program comes to a value without any message, and logs these warnings. -/
def Tells (p : Program α) (value : α) (texts : List String) : Prop :=
  ∃ events, p.recorded = done (.finished value, events) ∧ warnings events = texts

theorem tells_done (value : α) : (done value).Tells value [] := ⟨[], rfl, rfl⟩

theorem Tells.bind {p : Program β} {f : β → Program α} {middle : β} {value : α}
    {front back : List String} (first : p.Tells middle front)
    (second : (f middle).Tells value back) : (p.bind f).Tells value (front ++ back) := by
  obtain ⟨early, ran, rfl⟩ := first
  obtain ⟨late, went, rfl⟩ := second
  refine ⟨early ++ late, ?_, warnings_append early late⟩
  show (p.bind f).recordedAfter [] = _
  rw [recordedAfter_bind]
  show Program.bind p.recorded _ = _
  rw [ran]
  show (f middle).recordedAfter early.reverse = _
  rw [recordedAfter_eq, went, List.reverse_reverse]
  rfl

theorem computes_of_recordedAfter {p : Program α} {value : α} {past events : List Event}
    (recorded : p.recordedAfter past = done (.finished value, events)) : p.Computes value := by
  induction p generalizing past with
  | done =>
    cases recorded
    exact computes_done _
  | log level text next ih => exact ih recorded
  | halt | post | send | await | flush => cases recorded

theorem Tells.computes {p : Program α} {value : α} {texts : List String}
    (tells : p.Tells value texts) : p.Computes value := by
  obtain ⟨_, recorded, -⟩ := tells
  exact computes_of_recordedAfter recorded

end Program

/-! ## Programs that may fail -/

namespace Collective

variable {α β : Type}

theorem neverWarns_bind {p : Collective β} {f : β → Collective α} (first : p.run.NeverWarns)
    (second : ∀ value, (f value).run.NeverWarns) : (p >>= f).run.NeverWarns := by
  rw [run_bind]
  refine first.bind fun outcome => ?_
  cases outcome with
  | error e => trivial
  | ok value => exact second value

theorem neverWarns_ofAttempt {σ : Type} {p : Program (Attempt σ)} (quiet : p.NeverWarns) :
    (ofAttempt p).run.NeverWarns := quiet.bind fun _ => trivial

theorem tells_bind {p : Collective β} {f : β → Collective α} {middle : β}
    {value : Except VectorError α} {front back : List String}
    (first : p.run.Tells (.ok middle) front)
    (second : (f middle).run.Tells value back) : (p >>= f).run.Tells value (front ++ back) := by
  rw [run_bind]
  exact first.bind second

theorem tells_log {level : Level} (quiet : level ≠ .warn) (text : String) :
    (log level text).run.Tells (.ok ()) [] := by
  refine ⟨_, rfl, ?_⟩
  cases level <;> first | rfl | exact absurd rfl quiet

theorem tells_forM_warn {γ : Type} (text : γ → String) (items : List γ) :
    (items.forM fun item => log .warn (text item)).run.Tells (.ok ()) (items.map text) := by
  induction items with
  | nil => exact Program.tells_done _
  | cons item rest ih =>
    have warned : (log .warn (text item)).run.Tells (.ok ()) [text item] := ⟨_, rfl, rfl⟩
    exact tells_bind warned ih

end Collective

/-! ## What ranks do together

Exchanges and agreements log what they do, but warn of nothing. -/

section exchange

variable (c : Communicator) {α : Type}

theorem neverWarns_exchangeBytes (sent : Bytes) (outgoing : Layout) (buffer : Bytes)
    (incoming : Layout) (tag : Tag) :
    (exchangeBytes c sent outgoing buffer incoming tag).NeverWarns := by
  have posts (peers : List Nat) : (postReceives incoming tag peers).NeverWarns := by
    refine Program.neverWarns_mapM (fun peer => ?_) _
    exact fun _ => trivial
  have sends (peers : List Nat) : (sendParts sent outgoing tag peers).NeverWarns := by
    refine Program.neverWarns_forM (fun peer => ?_) _
    trivial
  have waits (tickets : List (Nat × Ticket)) (own : Attempt Bytes) :
      (awaitParts c.topology.rank incoming tickets own).NeverWarns := by
    refine Program.neverWarns_foldlM (fun received ticket => ?_) _ _
    exact fun _ => ⟨nofun, trivial⟩
  have flushes (peers : List Nat) : (flushParts outgoing tag peers).NeverWarns := by
    refine Program.neverWarns_forM (fun peer => ?_) _
    trivial
  unfold exchangeBytes
  dsimp only
  split
  · trivial
  · exact (posts _).bind fun _ => (sends _).bind fun _ => (waits _ _).bind fun _ =>
      (flushes _).bind fun _ => trivial

theorem neverWarns_exchange [Cell α] (sent : List α) (outgoing incoming : Layout) (tag : Tag) :
    (exchange c sent outgoing incoming tag).run.NeverWarns :=
  Collective.neverWarns_bind
    (Collective.neverWarns_ofAttempt (neverWarns_exchangeBytes c _ _ _ _ _)) fun _ => trivial

theorem neverWarns_exchangeCounts (counts : List Nat) (tag : Tag) :
    (exchangeCounts c counts tag).run.NeverWarns := by
  unfold exchangeCounts
  split
  · trivial
  · exact Collective.neverWarns_bind (neverWarns_exchange c _ _ _ _) fun _ => trivial

theorem neverWarns_exchangeByRank [Cell α] (lists : RankMap (List α)) (tags : ExchangeTags) :
    (exchangeByRank c lists tags).run.NeverWarns :=
  Collective.neverWarns_bind trivial fun _ =>
    Collective.neverWarns_bind (neverWarns_exchangeCounts c _ _) fun _ =>
      Collective.neverWarns_bind (neverWarns_exchange c _ _ _ _) fun _ => ⟨nofun, trivial⟩

theorem neverWarns_gather [Cell α] (value : α) : (gather c value).run.NeverWarns :=
  Collective.neverWarns_bind
    (Collective.neverWarns_ofAttempt (neverWarns_exchangeBytes c _ _ _ _ _)) fun _ => trivial

theorem neverWarns_agreeOnMode (mode : QueueMode) : (agreeOnMode c mode).run.NeverWarns :=
  Collective.neverWarns_bind (neverWarns_gather c _) fun _ => trivial

theorem neverWarns_agreeOnOutcome (outcome : Except VectorError α) (operation : String) :
    (agreeOnOutcome c outcome operation).run.NeverWarns := by
  refine Collective.neverWarns_bind (neverWarns_gather c _) fun statuses => ?_
  cases outcome with
  | error e => trivial
  | ok value =>
    dsimp only
    split
    · trivial
    · exact ⟨nofun, trivial⟩

end exchange

/-! ## Groups -/

namespace Group

variable {α β : Type} {size : Nat}

/-- A step of a program adds some events to its record. The recorded program takes the same step,
or none where the program writes to the log. -/
theorem recordedAfter_of_stepOf? {mailbox rest : Mailbox} {rank : Nat} {p next : Program α}
    (stepped : stepOf? mailbox rank p = some (next, rest)) (past : List Program.Event) :
    ∃ fresh, (stepOf? mailbox rank (p.recordedAfter past) =
          some (next.recordedAfter (fresh ++ past), rest) ∨
        p.recordedAfter past = next.recordedAfter (fresh ++ past) ∧ rest = mailbox) ∧
      (p.NeverWarns → next.NeverWarns ∧ Program.warnings fresh = []) := by
  cases p with
  | done | halt => cases stepped
  | log level text next =>
    cases stepped
    refine ⟨[.logged level text], .inr ⟨rfl, rfl⟩, fun ⟨quiet, later⟩ => ⟨later, ?_⟩⟩
    cases level <;> first | rfl | exact absurd rfl quiet
  | post source tag length next =>
    cases stepped
    exact ⟨[_], .inl rfl, fun quiet => ⟨quiet 0, rfl⟩⟩
  | send target tag data next | flush target tag next =>
    cases stepped
    exact ⟨[_], .inl rfl, fun quiet => ⟨quiet, rfl⟩⟩
  | await ticket next =>
    obtain ⟨⟨data, left⟩, taken, same⟩ := Option.map_eq_some_iff.1 stepped
    cases same
    refine ⟨[.delivered (some data), .called (.awaited ticket.source ticket.tag)], .inl ?_,
      fun quiet => ⟨quiet _, rfl⟩⟩
    simp only [Program.recordedAfter, stepOf?, taken]
    rfl

/-- All ranks are recorded, each after what it did before. -/
def recording (g : Group α) (past : Nat → List Program.Event) :
    Group (Program.Ending α × List Program.Event) :=
  ⟨g.programs.mapIdx fun rank p => p.recordedAfter (past rank), g.mailbox⟩

theorem recording_ofRanks (p : Nat → Program α) (past : Nat → List Program.Event) :
    (ofRanks size p).recording past =
      ofRanks size fun rank => (p rank).recordedAfter (past rank) := by
  simp only [recording, ofRanks, ofPrograms, Group.mk.injEq, and_true]
  apply List.ext_getElem?
  intro rank
  by_cases inside : rank < size <;> simp [inside]

/-- If one rank goes on, all others have the same record. -/
theorem recording_set (g : Group α) (mailbox : Mailbox) (rank : Nat) (next : Program α)
    (past : Nat → List Program.Event) (events : List Program.Event) :
    Group.recording ⟨g.programs.set rank next, mailbox⟩ (Function.update past rank events) =
      ⟨(g.recording past).programs.set rank (next.recordedAfter events), mailbox⟩ := by
  simp only [recording, Group.mk.injEq, and_true]
  apply List.ext_getElem?
  intro other
  by_cases same : rank = other
  · subst same
    simp [List.getElem?_set]
  · simp [Ne.symm same, List.getElem?_set_ne same]

/-- What a group reaches, it reaches if it is recorded. Ranks that never warn add no warning to
their records. -/
theorem Reaches.recording {g last : Group α} (reaches : Reaches g last)
    (past : Nat → List Program.Event) :
    ∃ whole : Nat → List Program.Event, Reaches (g.recording past) (last.recording whole) ∧
      ((∀ p ∈ g.programs, p.NeverWarns) →
        ∀ rank, Program.warnings (whole rank) = Program.warnings (past rank)) := by
  induction reaches generalizing past with
  | refl g => exact ⟨past, .refl _, fun _ _ => rfl⟩
  | @step g next last taken _ ih =>
    obtain ⟨rank, advanced⟩ := taken
    obtain ⟨before, after, mailbox, found, stepped, rfl⟩ := advance?_eq_some_iff.1 advanced
    obtain ⟨fresh, recorded, quietly⟩ := recordedAfter_of_stepOf? stepped (past rank)
    obtain ⟨whole, later, kept⟩ := ih (Function.update past rank (fresh ++ past rank))
    have here : (g.recording past).programs[rank]? = some (before.recordedAfter (past rank)) := by
      simp [Group.recording, found]
    rw [recording_set] at later
    refine ⟨whole, ?_, fun quiet other => ?_⟩
    · rcases recorded with moved | ⟨stayed, rfl⟩
      · exact .step ⟨rank, advance?_eq_some_iff.2 ⟨_, _, mailbox, here, moved, rfl⟩⟩ later
      · obtain ⟨inside, here⟩ := List.getElem?_eq_some_iff.1 here
        rwa [← stayed, ← here, List.set_getElem_self] at later
    · obtain ⟨quietAfter, unwarned⟩ := quietly (quiet before (List.mem_of_getElem? found))
      rw [kept (fun p member => (List.mem_or_eq_of_mem_set member).elim (quiet p)
        fun same => same ▸ quietAfter) other]
      by_cases same : other = rank
      · subst same
        rw [Function.update_self, Program.warnings_append, unwarned, List.nil_append]
      · rw [Function.update_of_ne same]

/-- The ranks settle with these values, and each logs these warnings until then. -/
def Warns (size : Nat) (p : Nat → Program α) (values : Nat → α) (texts : Nat → List String) :
    Prop :=
  ∃ events : Nat → List Program.Event,
    Settles size (fun rank => (p rank).recorded)
      (fun rank => (.finished (values rank), events rank)) ∧
    ∀ rank < size, Program.warnings (events rank) = texts rank

/-- What settles and never warns leaves no warning. -/
theorem Settles.recorded {p : Nat → Program α} {values : Nat → α} (settled : Settles size p values)
    (quiet : ∀ rank < size, (p rank).NeverWarns) : Warns size p values fun _ => [] := by
  rw [settles_iff_reaches] at settled
  obtain ⟨past, reaches, unwarned⟩ := settled.recording fun _ => []
  rw [recording_ofRanks, recording_ofRanks] at reaches
  refine ⟨fun rank => (past rank).reverse, settles_iff_reaches.2 reaches, fun rank _ => ?_⟩
  rw [Program.warnings_reverse, unwarned (fun p member => ?_) rank]
  · rfl
  · obtain ⟨other, inside, rfl⟩ := List.mem_map.1 member
    exact quiet other (List.mem_range.1 inside)

namespace Warns

theorem of_tells {p : Nat → Program α} {values : Nat → α} {texts : Nat → List String}
    (tells : ∀ rank < size, (p rank).Tells (values rank) (texts rank)) :
    Warns size p values texts := by
  have recorded (rank : Nat) : ∃ events, rank < size →
      (p rank).recorded = .done (.finished (values rank), events) ∧
        Program.warnings events = texts rank := by
    by_cases inside : rank < size
    · obtain ⟨events, known⟩ := tells rank inside
      exact ⟨events, fun _ => known⟩
    · exact ⟨[], fun within => absurd within inside⟩
  choose events known using recorded
  exact ⟨events, .of_eq (fun rank inside => (known rank inside).1) (.done _),
    fun rank inside => (known rank inside).2⟩

/-- What warns can go on with what warns. -/
theorem bind {p : Nat → Program β} {f : Nat → β → Program α} {middle : Nat → β}
    {values : Nat → α} {front back : Nat → List String} (first : Warns size p middle front)
    (second : Warns size (fun rank => f rank (middle rank)) values back) :
    Warns size (fun rank => (p rank).bind (f rank)) values fun rank => front rank ++ back rank := by
  obtain ⟨early, settled, warned⟩ := first
  obtain ⟨late, settles, warnedThen⟩ := second
  refine ⟨fun rank => early rank ++ late rank, ?_, fun rank inside => ?_⟩
  · refine .of_eq (fun rank _ => Program.recordedAfter_bind (p rank) (f rank) [])
      (settled.bind ?_)
    refine .of_eq (fun rank _ => Program.recordedAfter_eq _ (early rank).reverse) ?_
    refine (settles.map fun rank record =>
      (record.1, (early rank).reverse.reverse ++ record.2)).congr (fun _ _ => rfl) fun rank _ => ?_
    rw [List.reverse_reverse]
  · rw [Program.warnings_append, warned rank inside, warnedThen rank inside]

theorem congr {p others : Nat → Program α} {values results : Nat → α}
    {texts lines : Nat → List String} (warns : Warns size p values texts)
    (samePrograms : ∀ rank < size, p rank = others rank)
    (sameValues : ∀ rank < size, values rank = results rank)
    (sameTexts : ∀ rank < size, texts rank = lines rank) :
    Warns size others results lines := by
  obtain ⟨events, settled, warned⟩ := warns
  refine ⟨events, settled.congr (fun rank inside => by rw [samePrograms rank inside])
    (fun rank inside => by rw [sameValues rank inside]), fun rank inside => ?_⟩
  rw [warned rank inside, sameTexts rank inside]

theorem map (f : Nat → β → α) {p : Nat → Program β} {middle : Nat → β}
    {texts : Nat → List String} (warns : Warns size p middle texts) :
    Warns size (fun rank => (p rank).bind fun value => .done (f rank value))
      (fun rank => f rank (middle rank)) texts := by
  have after := warns.bind (f := fun rank value => .done (f rank value))
    (of_tells fun rank _ => Program.tells_done (f rank (middle rank)))
  simpa only [List.append_nil] using after

end Warns

end Group
end HaloVector
