import HaloVector.Proofs.Schedule

/-!
# Lockstep

One schedule is enough to know what a group settles with, so it may be a convenient
one. In lockstep the programs of a group are cut into the same rounds. In each
round the ranks take their turns in increasing order, and each takes all steps of
its round at once. `Program.solo` computes what such a turn comes to.

* `Group.reaches_round` is one round, with an invariant of the mailbox.
* `Group.Settles.bind` puts what settles one after the other.
* `Collective.settles_bind` and `Collective.settles_bind_ok` do so for programs that
  may fail.
-/

namespace HaloVector

namespace Program

variable {α β : Type}

/-! ## Turns -/

/-- The value of a program and the mailbox it leaves, if its rank can take all steps
without waiting for others. -/
def solo (rank : Nat) : Program α → Mailbox → Option (α × Mailbox)
  | done value, mailbox => some (value, mailbox)
  | halt _, _ => none
  | log _ _ next, mailbox => next.solo rank mailbox
  | post source tag _ next, mailbox => (next ⟨source, tag, 0⟩).solo rank mailbox
  | send target tag data next, mailbox =>
    next.solo rank (mailbox.put ⟨rank, target, tag⟩ data)
  | await ticket next, mailbox => do
    let (data, rest) ← mailbox.take? ⟨ticket.source, rank, ticket.tag⟩
    (next (some data)).solo rank rest
  | flush _ _ next, mailbox => next.solo rank mailbox

theorem solo_bind (rank : Nat) (p : Program β) (f : β → Program α) (mailbox : Mailbox) :
    (p.bind f).solo rank mailbox =
      (p.solo rank mailbox).bind fun ran => (f ran.1).solo rank ran.2 := by
  induction p generalizing mailbox with
  | done | halt => rfl
  | log level text next ih => exact ih mailbox
  | post source tag length next ih => exact ih _ mailbox
  | send target tag data next ih => exact ih _
  | await ticket next ih =>
    simp only [Program.bind, solo, Option.bind_eq_bind, Option.bind_assoc]
    congr 1
    funext taken
    obtain ⟨data, rest⟩ := taken
    exact ih _ rest
  | flush target tag next ih => exact ih mailbox

/-- The program comes to a value without any message. -/
def Computes (p : Program α) (value : α) : Prop :=
  ∀ rank mailbox, p.solo rank mailbox = some (value, mailbox)

theorem Computes.bind {p : Program β} {f : β → Program α} {middle : β} {value : α}
    (first : p.Computes middle) (second : (f middle).Computes value) :
    (p.bind f).Computes value := by
  intro rank mailbox
  rw [solo_bind, first rank mailbox]
  exact second rank mailbox

theorem computes_done (value : α) : (done value).Computes value := fun _ _ => rfl

end Program

namespace Group

variable {α β : Type}

/-- The first step of a turn, and what follows it. -/
theorem reaches_first {g : Group α} {rank : Nat} {program next last : Program α}
    {mailbox rest : Mailbox} (found : g.programs[rank]? = some program)
    (stepped : stepOf? g.mailbox rank program = some (next, mailbox))
    (later : Reaches ⟨g.programs.set rank next, mailbox⟩
      ⟨(g.programs.set rank next).set rank last, rest⟩) :
    Reaches g ⟨g.programs.set rank last, rest⟩ := by
  rw [List.set_set] at later
  exact .step ⟨rank, advance?_eq_some_iff.2 ⟨_, next, mailbox, found, stepped, rfl⟩⟩ later

/-- A turn of one rank, inside a longer program. -/
theorem reaches_solo {rank : Nat} {p : Program β} {f : β → Program α} {g : Group α}
    {value : β} {rest : Mailbox} (found : g.programs[rank]? = some (p.bind f))
    (ran : p.solo rank g.mailbox = some (value, rest)) :
    Reaches g ⟨g.programs.set rank (f value), rest⟩ := by
  obtain ⟨inside, here⟩ := List.getElem?_eq_some_iff.1 found
  induction p generalizing g with
  | done result =>
    cases ran
    have unchanged : g.programs.set rank (f value) = g.programs := by
      have same := List.set_getElem_self inside
      rwa [here] at same
    rw [unchanged]
    exact .refl g
  | halt why => cases ran
  | log level text next ih | flush target tag next ih =>
    refine reaches_first found rfl (ih ?_ ran ?_ ?_) <;> simp [inside]
  | post source tag length next ih =>
    refine reaches_first found rfl (ih _ ?_ ran ?_ ?_) <;> simp [inside]
  | send target tag data next ih =>
    refine reaches_first found rfl (ih ?_ ran ?_ ?_) <;> simp [inside]
  | await ticket next ih =>
    obtain ⟨⟨data, left⟩, taken, after⟩ := Option.bind_eq_some_iff.1 ran
    have stepped : stepOf? g.mailbox rank ((Program.await ticket next).bind f) =
        some ((next (some data)).bind f, left) := by
      simp [Program.bind, stepOf?, taken]
    refine reaches_first found stepped (ih _ ?_ after ?_ ?_) <;> simp [inside]

/-! ## Rounds -/

/-- Every rank takes one turn. The mailbox meets `Turn k` when the ranks below `k` have
had theirs. -/
theorem reaches_round {size : Nat} {p : Nat → Program β} {f : Nat → β → Program α}
    {values : Nat → β} (Turn : Nat → Mailbox → Prop) {mailbox : Mailbox}
    (start : Turn 0 mailbox)
    (turn : ∀ rank < size, ∀ before, Turn rank before →
      ∃ after, (p rank).solo rank before = some (values rank, after) ∧ Turn (rank + 1) after) :
    ∃ last, Turn size last ∧
      Reaches ⟨(ofRanks size fun rank => (p rank).bind (f rank)).programs, mailbox⟩
        ⟨(ofRanks size fun rank => f rank (values rank)).programs, last⟩ := by
  -- the ranks below `k` are at the next round, the others still at this one
  let mixed (k rank : Nat) : Program α :=
    if rank < k then f rank (values rank) else (p rank).bind (f rank)
  have upTo : ∀ k ≤ size, ∃ last, Turn k last ∧
      Reaches ⟨(ofRanks size (mixed 0)).programs, mailbox⟩
        ⟨(ofRanks size (mixed k)).programs, last⟩ := by
    intro k within
    induction k with
    | zero => exact ⟨mailbox, start, .refl _⟩
    | succ k ih =>
      obtain ⟨before, held, reaches⟩ := ih (Nat.le_of_succ_le within)
      obtain ⟨after, ran, holds⟩ := turn k within before held
      refine ⟨after, holds, reaches.trans ?_⟩
      have inside : k < size := within
      have found : (ofRanks size (mixed k)).programs[k]? = some ((p k).bind (f k)) := by
        simp [getElem?_ofRanks, inside, mixed]
      have moved := reaches_solo (g := ⟨(ofRanks size (mixed k)).programs, before⟩) found ran
      have same : (ofRanks size (mixed k)).programs.set k (f k (values k)) =
          (ofRanks size (mixed (k + 1))).programs := by
        apply List.ext_getElem?
        intro rank
        rw [List.getElem?_set, getElem?_ofRanks, getElem?_ofRanks]
        rcases Nat.lt_trichotomy k rank with above | rfl | below
        · rw [if_neg (Nat.ne_of_lt above)]
          simp only [mixed, if_neg (Nat.not_lt_of_gt above), if_neg (Nat.not_lt_of_ge above)]
        · have present : k < (ofRanks size (mixed k)).programs.length := by
            simpa [ofRanks, ofPrograms] using inside
          rw [if_pos rfl, if_pos present, if_pos inside]
          simp only [mixed, if_pos (Nat.lt_succ_self k)]
        · rw [if_neg (Nat.ne_of_gt below)]
          simp only [mixed, if_pos below, if_pos (Nat.lt_succ_of_lt below)]
      rwa [same] at moved
  obtain ⟨last, holds, reaches⟩ := upTo size (Nat.le_refl size)
  refine ⟨last, holds, ?_⟩
  have first : ofRanks size (mixed 0) = ofRanks size fun rank => (p rank).bind (f rank) :=
    ofRanks_congr fun rank _ => if_neg (Nat.not_lt_zero rank)
  have final : ofRanks size (mixed size) = ofRanks size fun rank => f rank (values rank) :=
    ofRanks_congr fun rank inside => if_pos inside
  rwa [first, final] at reaches

/-! ## Sequencing -/

/-- Every program goes on with `f` where it ended. -/
def andThen (g : Group β) (f : Nat → β → Program α) : Group α :=
  ⟨g.programs.mapIdx fun rank p => p.bind (f rank), g.mailbox⟩

theorem stepOf?_bind {mailbox rest : Mailbox} {rank : Nat} {p next : Program β}
    (stepped : stepOf? mailbox rank p = some (next, rest)) (f : β → Program α) :
    stepOf? mailbox rank (p.bind f) = some (next.bind f, rest) := by
  cases p with
  | done | halt => cases stepped
  | log | post | send | flush =>
    cases stepped
    rfl
  | await ticket later =>
    obtain ⟨⟨data, left⟩, taken, same⟩ := Option.map_eq_some_iff.1 stepped
    cases same
    simp [Program.bind, stepOf?, taken]

theorem Reaches.andThen {g last : Group β} (reaches : Reaches g last)
    (f : Nat → β → Program α) : Reaches (g.andThen f) (last.andThen f) := by
  induction reaches with
  | refl g => exact .refl _
  | @step g next last taken _ ih =>
    obtain ⟨rank, advanced⟩ := taken
    obtain ⟨before, after, mailbox, found, stepped, rfl⟩ := advance?_eq_some_iff.1 advanced
    refine .step ⟨rank, advance?_eq_some_iff.2 ?_⟩ ih
    refine ⟨_, _, mailbox, ?_, stepOf?_bind stepped (f rank), ?_⟩
    · simp [Group.andThen, found]
    · simp [Group.andThen, List.mapIdx_set]

theorem andThen_ofRanks (size : Nat) (p : Nat → Program β) (f : Nat → β → Program α) :
    (ofRanks size p).andThen f = ofRanks size fun rank => (p rank).bind (f rank) := by
  simp only [andThen, ofRanks, ofPrograms, Group.mk.injEq, and_true]
  apply List.ext_getElem?
  intro rank
  by_cases inside : rank < size <;> simp [inside]

namespace Settles

variable {size : Nat}

/-- What settles can go on with what settles. -/
theorem bind {p : Nat → Program β} {f : Nat → β → Program α} {middle : Nat → β}
    {values : Nat → α} (first : Settles size p middle)
    (second : Settles size (fun rank => f rank (middle rank)) values) :
    Settles size (fun rank => (p rank).bind (f rank)) values := by
  rw [settles_iff_reaches] at *
  have reaches := first.andThen f
  rw [andThen_ofRanks, andThen_ofRanks] at reaches
  exact reaches.trans second

/-- Ranks that need no message settle. -/
theorem of_computes {p : Nat → Program α} {values : Nat → α}
    (computes : ∀ rank < size, (p rank).Computes (values rank)) : Settles size p values := by
  rw [settles_iff_reaches]
  obtain ⟨last, rfl, reaches⟩ := reaches_round (p := p) (f := fun _ => Program.done)
    (fun _ mailbox => mailbox = .empty) rfl
    (fun rank inside before held => ⟨before, computes rank inside rank before, held⟩)
  simp only [Program.bind_done] at reaches
  exact reaches

theorem done (values : Nat → α) : Settles size (fun rank => .done (values rank)) values :=
  of_computes fun rank _ => Program.computes_done (values rank)

theorem map (f : Nat → β → α) {p : Nat → Program β} {middle : Nat → β}
    (settled : Settles size p middle) :
    Settles size (fun rank => (p rank).bind fun value => .done (f rank value))
      fun rank => f rank (middle rank) :=
  settled.bind (.done _)

end Settles

end Group

/-! ## Programs that may fail -/

namespace Collective

variable {α β : Type} {size : Nat}

@[simp] theorem ofExcept_ok_bind (value : β) (f : β → Collective α) :
    ofExcept (.ok value) >>= f = f value := rfl

@[simp] theorem inBounds_some_bind (value : β) (f : β → Collective α) :
    inBounds (some value) >>= f = f value := rfl

/-- Goes on with a value; a failure stays what it is. -/
def proceed (f : β → Collective α) : Except VectorError β → Program (Except VectorError α)
  | .ok value => (f value).run
  | .error e => .done (.error e)

theorem run_bind (p : Collective β) (f : β → Collective α) :
    (p >>= f).run = p.run.bind (proceed f) := by
  rw [ExceptT.run_bind]
  show p.run.bind _ = p.run.bind _
  congr 1
  funext outcome
  cases outcome <;> rfl

/-- Every rank goes on or fails with what it came to. -/
theorem settles_bind {p : Nat → Collective β} {f : Nat → β → Collective α}
    {middle : Nat → Except VectorError β} {values : Nat → Except VectorError α}
    (first : Group.Settles size (fun rank => (p rank).run) middle)
    (second : Group.Settles size (fun rank => proceed (f rank) (middle rank)) values) :
    Group.Settles size (fun rank => (p rank >>= f rank).run) values := by
  simp only [run_bind]
  exact first.bind second

/-- All ranks go on. -/
theorem settles_bind_ok {p : Nat → Collective β} {f : Nat → β → Collective α}
    {middle : Nat → β} {values : Nat → Except VectorError α}
    (first : Group.Settles size (fun rank => (p rank).run) fun rank => .ok (middle rank))
    (second : Group.Settles size (fun rank => (f rank (middle rank)).run) values) :
    Group.Settles size (fun rank => (p rank >>= f rank).run) values :=
  settles_bind first second

theorem computes_bind_ok {p : Collective β} {f : β → Collective α} {middle : β}
    {value : Except VectorError α} (first : p.run.Computes (.ok middle))
    (second : (f middle).run.Computes value) : (p >>= f).run.Computes value := by
  rw [run_bind]
  exact first.bind second

/-- What follows needs no message. -/
theorem settles_bind_computes {p : Nat → Collective β} {f : Nat → β → Collective α}
    {middle : Nat → Except VectorError β} {g : Nat → β → Except VectorError α}
    (first : Group.Settles size (fun rank => (p rank).run) middle)
    (second : ∀ rank < size, ∀ value, middle rank = .ok value →
      (f rank value).run.Computes (g rank value)) :
    Group.Settles size (fun rank => (p rank >>= f rank).run)
      fun rank => middle rank >>= g rank := by
  refine settles_bind first (.of_computes fun rank inside => ?_)
  cases came : middle rank with
  | ok value => exact second rank inside value came
  | error e => exact Program.computes_done _

theorem settles_map (f : Nat → β → α) {p : Nat → Collective β} {middle : Nat → β}
    (settled : Group.Settles size (fun rank => (p rank).run) fun rank => .ok (middle rank)) :
    Group.Settles size (fun rank => (p rank >>= fun value => pure (f rank value)).run)
      fun rank => .ok (f rank (middle rank)) :=
  settles_bind_ok settled (.done _)

theorem settles_ofAttempt {σ : Type} {p : Nat → Program (Attempt σ)} {states : Nat → σ}
    (settled : Group.Settles size p fun rank => ⟨states rank, .ok ()⟩) :
    Group.Settles size (fun rank => (ofAttempt (p rank)).run) fun rank => .ok (states rank) :=
  settled.bind (.done _)

theorem settles_log (level : Level) (texts : Nat → String) :
    Group.Settles size (fun rank => (log level (texts rank)).run) fun _ => .ok () :=
  .of_computes fun _ _ _ _ => rfl

end Collective
end HaloVector
