import Mathlib.Logic.Function.Basic
import Mathlib.Logic.Relation
import HaloVector.Proofs.Schedule

/-!
# Histories

What a rank does and learns while its group runs: its log lines, its use of the transport and
the bytes of every wait, in order. A history depends on the schedule no more than the end of
a run does. This holds of every rank, even of one that is left waiting.

* `Group.eventsOf_of_advance?`: what a rank does next, as soon as it can, stays the same
  whatever other ranks do first.
* `Observed.diamond`: so steps of different ranks commute with all histories in view.
* `Observed.schedules_agree`: all schedules of a group end alike.
-/

namespace HaloVector

/-! ## What happens in a step -/

/-- What a rank does and learns in its next step. -/
def Program.eventsIn {α : Type} (mailbox : Mailbox) (rank : Nat) : Program α → List Program.Event
  | done _ | halt _ => []
  | log level text _ => [.logged level text]
  | post source tag length _ => [.called (.posted source tag length)]
  | send target tag data _ => [.called (.sent target tag data)]
  | await ticket _ =>
    [.called (.awaited ticket.source ticket.tag),
      .delivered ((mailbox.take? ⟨ticket.source, rank, ticket.tag⟩).map Prod.fst)]
  | flush target tag _ => [.called (.flushed target tag)]

namespace Group

variable {α : Type}

/-- What happens if this rank takes the next step of the group. -/
def eventsOf (g : Group α) (rank : Nat) : List Program.Event :=
  (g.programs[rank]?.map (Program.eventsIn g.mailbox rank)).getD []

/-- The other ranks neither hold up nor change what a rank does next. -/
theorem eventsOf_of_advance? {g left right : Group α} {one other : Nat} (distinct : one ≠ other)
    (toLeft : g.advance? one = some left) (toRight : g.advance? other = some right) :
    left.eventsOf other = g.eventsOf other := by
  obtain ⟨p, nextP, restP, foundP, stepP, rfl⟩ := advance?_eq_some_iff.1 toLeft
  obtain ⟨q, nextQ, restQ, foundQ, stepQ, rfl⟩ := advance?_eq_some_iff.1 toRight
  have still : (g.programs.set one nextP)[other]? = some q := by
    rw [List.getElem?_set_ne distinct, foundQ]
  unfold eventsOf
  rw [still, foundQ, Option.map_some, Option.map_some, Option.getD_some, Option.getD_some]
  cases q with
  | done | halt | log | post | send | flush => rfl
  | await ticket later =>
    -- the message that is taken was already the oldest of its queue
    obtain ⟨⟨data, rest⟩, taken, -⟩ := Option.map_eq_some_iff.1 stepQ
    obtain ⟨effect, ofOne, applied, -⟩ := exists_effect stepP
    let taking : Effect := .take ⟨ticket.source, other, ticket.tag⟩ data
    have takes : taking.act? g.mailbox = some rest := Effect.act?_take.2 taken
    have ofOther : taking.BelongsTo other := rfl
    obtain ⟨both, again, -⟩ := Effect.commute distinct ofOne ofOther applied takes
    simp only [Program.eventsIn, taken, Effect.act?_take.1 again, Option.map_some]

end Group

/-! ## Observed groups -/

/-- A group together with what has happened to each of its ranks, in order. -/
structure Observed (α : Type) where
  group : Group α
  histories : Nat → List Program.Event

namespace Observed

variable {α : Type}

/-- A group whose ranks have not started. -/
def start (programs : List (Program α)) : Observed α := ⟨.ofPrograms programs, fun _ => []⟩

/-- The next step of one rank, if that rank can take one. -/
def advance? (o : Observed α) (rank : Nat) : Option (Observed α) :=
  (o.group.advance? rank).map fun next =>
    ⟨next, Function.update o.histories rank (o.histories rank ++ o.group.eventsOf rank)⟩

/-- The group after one step of each of these ranks in turn, if all can be taken. -/
def after? (o : Observed α) (schedule : List Nat) : Option (Observed α) :=
  schedule.foldlM advance? o

/-- Some rank takes one step. -/
def Step (o next : Observed α) : Prop := ∃ rank, o.advance? rank = some next

theorem after?_cons (o : Observed α) (rank : Nat) (schedule : List Nat) :
    o.after? (rank :: schedule) = (o.advance? rank).bind (after? · schedule) := by
  rw [after?, List.foldlM_cons]
  rfl

theorem reaches_of_after? {o last : Observed α} {schedule : List Nat}
    (ran : o.after? schedule = some last) : Relation.ReflTransGen Step o last := by
  induction schedule generalizing o with
  | nil =>
    cases ran
    exact .refl
  | cons rank schedule ih =>
    rw [after?_cons] at ran
    obtain ⟨next, advanced, later⟩ := Option.bind_eq_some_iff.1 ran
    exact .head ⟨rank, advanced⟩ (ih later)

/-! ## Confluence -/

/-- Steps of different ranks lead to one group and to one history of each rank. -/
theorem diamond {o left right : Observed α} (toLeft : Step o left) (toRight : Step o right) :
    left = right ∨ ∃ both, Step left both ∧ Step right both := by
  obtain ⟨one, advancedOne⟩ := toLeft
  obtain ⟨other, advancedOther⟩ := toRight
  by_cases same : one = other
  · subst same
    exact .inl (Option.some.inj (advancedOne.symm.trans advancedOther))
  · obtain ⟨leftGroup, toLeft, rfl⟩ := Option.map_eq_some_iff.1 advancedOne
    obtain ⟨rightGroup, toRight, rfl⟩ := Option.map_eq_some_iff.1 advancedOther
    obtain ⟨both, fromLeft, fromRight⟩ := Group.advance?_comm same toLeft toRight
    have seenLater := Group.eventsOf_of_advance? same toLeft toRight
    have seenFirst := Group.eventsOf_of_advance? (Ne.symm same) toRight toLeft
    let eventsOne := o.histories one ++ o.group.eventsOf one
    let eventsOther := o.histories other ++ o.group.eventsOf other
    refine .inr ⟨⟨both, Function.update (Function.update o.histories one eventsOne) other
      eventsOther⟩, ⟨other, ?_⟩, ⟨one, ?_⟩⟩
    · simp only [advance?, fromLeft, seenLater, Option.map_some,
        Function.update_of_ne (Ne.symm same)]
      rfl
    · simp only [advance?, fromRight, seenFirst, Option.map_some, Function.update_of_ne same]
      rw [Function.update_comm same]

theorem eq_of_isStuck {o last : Observed α} (stuck : o.group.IsStuck)
    (reaches : Relation.ReflTransGen Step o last) : last = o := by
  rcases reaches.cases_head with same | ⟨next, ⟨rank, advanced⟩, -⟩
  · exact same.symm
  · rw [advance?, stuck rank] at advanced
    cases advanced

/-- Every group can be run until no rank can go on. -/
theorem exists_last (o : Observed α) :
    ∃ schedule last, o.after? schedule = some last ∧ last.group.IsStuck := by
  obtain ⟨g, histories⟩ := o
  induction g.acc_step generalizing histories with
  | intro g _ ih =>
    by_cases stuck : g.IsStuck
    · exact ⟨[], _, rfl, stuck⟩
    · obtain ⟨rank, able⟩ := not_forall.1 stuck
      obtain ⟨next, advanced⟩ := Option.ne_none_iff_exists'.1 able
      obtain ⟨schedule, last, ran, ended⟩ := ih next ⟨rank, advanced⟩ _
      refine ⟨rank :: schedule, last, ?_, ended⟩
      rw [after?_cons, advance?, advanced]
      exact ran

/-- However the ranks of a group take turns, they come to the same end: every rank has done
the same and received the same bytes at each wait, has ended or waits in the same place, and the
same messages are left in the same order. So the results, errors and log lines of whatever the
ranks do together are always the same. There is such an end ahead of every schedule. -/
theorem schedules_agree (programs : List (Program α)) :
    (∀ one other lastOne lastOther,
      (start programs).after? one = some lastOne → lastOne.group.IsStuck →
      (start programs).after? other = some lastOther → lastOther.group.IsStuck →
      lastOne = lastOther) ∧
    ∀ schedule reached, (start programs).after? schedule = some reached →
      ∃ more last, reached.after? more = some last ∧ last.group.IsStuck := by
  refine ⟨fun one other lastOne lastOther ranOne stuckOne ranOther stuckOther => ?_,
    fun schedule reached _ => reached.exists_last⟩
  obtain ⟨common, fromOne, fromOther⟩ := Relation.church_rosser
    (fun _ _ _ toLeft toRight => by
      rcases diamond toLeft toRight with rfl | ⟨both, onward, back⟩
      · exact ⟨_, .refl, .refl⟩
      · exact ⟨both, .single onward, .single back⟩)
    (reaches_of_after? ranOne) (reaches_of_after? ranOther)
  exact (eq_of_isStuck stuckOne fromOne).symm.trans (eq_of_isStuck stuckOther fromOther)

/-- The first rank waits for an answer that the second never sends. -/
def unanswered : List (Program Nat) := [
  .send 1 7 [1, 2] (.await ⟨1, 7, 0⟩ fun _ => .done 0),
  .log .info "waiting" (.await ⟨0, 7, 0⟩ fun reply => .done (reply.getD []).length)]

theorem schedules_agree_unanswered : ∃ last : Observed Nat,
    (start unanswered).after? [0, 1, 1] = some last ∧
    (start unanswered).after? [1, 0, 1] = some last ∧
    last.group.value? 0 = none ∧ last.group.value? 1 = some 2 ∧
    last.histories 1 =
      [.logged .info "waiting", .called (.awaited 0 7), .delivered (some [1, 2])] := by
  obtain ⟨last, ran⟩ : ∃ last, (start unanswered).after? [0, 1, 1] = some last := ⟨_, rfl⟩
  obtain ⟨other, ranOther⟩ : ∃ last, (start unanswered).after? [1, 0, 1] = some last := ⟨_, rfl⟩
  have stuck : last.group.IsStuck := by
    cases ran
    rintro (_ | _ | rank) <;> rfl
  have stuckOther : other.group.IsStuck := by
    cases ranOther
    rintro (_ | _ | rank) <;> rfl
  have same := (schedules_agree unanswered).1 _ _ last other ran stuck ranOther stuckOther
  refine ⟨last, ran, same ▸ ranOther, ?_⟩
  cases ran
  exact ⟨rfl, rfl, rfl⟩

end Observed

end HaloVector
