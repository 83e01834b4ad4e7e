import HaloVector.Group

/-!
# Schedules

At any moment several ranks of a group may be able to go on, and nothing decides
which of them does. It does not matter: steps of two different ranks commute,
because a queue has one rank that fills it and one rank that empties it, and what is
put at its end does not change what is taken from its front.

Results:
1. `Group.diamond`: two steps from one group are the same step, or lead on to a
   common group by one step each.
2. `Group.Reaches.of_isStuck`: a group in which no rank can go on is reached from
   every group that was reached on the way to anything else.
3. `Group.Settles` says of the programs of a group what they end with under every
   schedule, and `Group.settles_iff_reaches` that one schedule is enough to know it.
-/

namespace HaloVector

/-! ## What a step does to the mailbox -/

/-- The use that one step makes of the mailbox. -/
inductive Effect
  | quiet
  | put (channel : Channel) (message : Bytes)
  | take (channel : Channel) (message : Bytes)

namespace Effect

/-- The mailbox afterwards, if it allows this use. -/
def act? : Effect → Mailbox → Option Mailbox
  | quiet, mailbox => some mailbox
  | put channel message, mailbox => some (mailbox.put channel message)
  | take channel message, mailbox => do
    let (oldest, rest) ← mailbox.take? channel
    if oldest = message then some rest else none

/-- A rank puts what it sends and takes what was sent to it. -/
def BelongsTo (rank : Nat) : Effect → Prop
  | quiet => True
  | put channel _ => channel.source = rank
  | take channel _ => channel.target = rank

theorem act?_take {channel : Channel} {message : Bytes} {mailbox rest : Mailbox} :
    (take channel message).act? mailbox = some rest ↔
      mailbox.take? channel = some (message, rest) := by
  cases found : mailbox.take? channel <;> simp [act?, found, Prod.ext_iff]

end Effect

namespace Mailbox

theorem put_comm {m : Mailbox} {one other : Channel} (distinct : one ≠ other)
    (left right : Bytes) :
    (m.put one left).put other right = (m.put other right).put one left := by
  ext1 channel
  simp only [queue_put]
  grind

/-- Taking from the front of a queue leaves room for a message at its end. -/
theorem take?_put {m rest : Mailbox} {channel : Channel} {oldest : Bytes}
    (taken : m.take? channel = some (oldest, rest)) (other : Channel) (message : Bytes) :
    (m.put other message).take? channel = some (oldest, rest.put other message) := by
  obtain ⟨later, waiting, rfl⟩ := take?_eq_some_iff.1 taken
  rw [take?_eq_some_iff]
  by_cases same : other = channel
  · subst same
    refine ⟨later ++ [message], by simp [queue_put, waiting], ?_⟩
    ext1 third
    simp only [queue_setQueue, queue_put]
    grind
  · refine ⟨later, by simp [queue_put, same, waiting], ?_⟩
    ext1 third
    simp only [queue_setQueue, queue_put]
    grind

theorem take?_comm {m left right : Mailbox} {one other : Channel} {first second : Bytes}
    (distinct : one ≠ other) (takenOne : m.take? one = some (first, left))
    (takenOther : m.take? other = some (second, right)) :
    ∃ both, left.take? other = some (second, both) ∧
      right.take? one = some (first, both) := by
  obtain ⟨restOne, waitingOne, rfl⟩ := take?_eq_some_iff.1 takenOne
  obtain ⟨restOther, waitingOther, rfl⟩ := take?_eq_some_iff.1 takenOther
  refine ⟨(m.setQueue one restOne).setQueue other restOther, ?_, ?_⟩
  · exact take?_eq_some_iff.2
      ⟨restOther, by rw [queue_setQueue, if_neg distinct, waitingOther], rfl⟩
  · refine take?_eq_some_iff.2
      ⟨restOne, by rw [queue_setQueue, if_neg (Ne.symm distinct), waitingOne], ?_⟩
    ext1 channel
    simp only [queue_setQueue]
    grind

end Mailbox

/-- The uses that two ranks make of the mailbox do not disturb each other. -/
theorem Effect.commute {first second : Effect} {one other : Nat} {m left right : Mailbox}
    (distinct : one ≠ other) (ofOne : first.BelongsTo one) (ofOther : second.BelongsTo other)
    (toLeft : first.act? m = some left) (toRight : second.act? m = some right) :
    ∃ both, second.act? left = some both ∧ first.act? right = some both := by
  cases first with
  | quiet =>
    cases toLeft
    exact ⟨right, toRight, rfl⟩
  | put source message =>
    cases toLeft
    cases second with
    | quiet =>
      cases toRight
      exact ⟨_, rfl, rfl⟩
    | put target later =>
      cases toRight
      have apart : source ≠ target := by
        rintro rfl
        exact distinct (ofOne.symm.trans ofOther)
      exact ⟨_, rfl, congrArg some (Mailbox.put_comm apart message later).symm⟩
    | take target oldest =>
      have taken := Mailbox.take?_put (act?_take.1 toRight) source message
      exact ⟨_, act?_take.2 taken, rfl⟩
  | take source message =>
    cases second with
    | quiet =>
      cases toRight
      exact ⟨left, rfl, toLeft⟩
    | put target later =>
      cases toRight
      have taken := Mailbox.take?_put (act?_take.1 toLeft) target later
      exact ⟨_, rfl, act?_take.2 taken⟩
    | take target oldest =>
      have apart : source ≠ target := by
        rintro rfl
        exact distinct (ofOne.symm.trans ofOther)
      obtain ⟨both, fromLeft, fromRight⟩ :=
        Mailbox.take?_comm apart (act?_take.1 toLeft) (act?_take.1 toRight)
      exact ⟨both, act?_take.2 fromLeft, act?_take.2 fromRight⟩

namespace Group

variable {α : Type}

/-- A step is one use of the mailbox, and needs nothing else of it. -/
theorem exists_effect {mailbox rest : Mailbox} {rank : Nat} {p next : Program α}
    (stepped : stepOf? mailbox rank p = some (next, rest)) :
    ∃ effect : Effect, effect.BelongsTo rank ∧ effect.act? mailbox = some rest ∧
      ∀ {before after : Mailbox}, effect.act? before = some after →
        stepOf? before rank p = some (next, after) := by
  cases p with
  | done | halt => cases stepped
  | log | post | flush =>
    cases stepped
    refine ⟨.quiet, trivial, rfl, ?_⟩
    rintro before _ ⟨⟩
    rfl
  | send target tag data later =>
    cases stepped
    refine ⟨.put ⟨rank, target, tag⟩ data, rfl, rfl, ?_⟩
    rintro before _ ⟨⟩
    rfl
  | await ticket later =>
    obtain ⟨⟨data, left⟩, taken, same⟩ := Option.map_eq_some_iff.1 stepped
    cases same
    refine ⟨.take ⟨ticket.source, rank, ticket.tag⟩ data, rfl, Effect.act?_take.2 taken, ?_⟩
    intro before after applied
    rw [stepOf?, Effect.act?_take.1 applied]
    rfl

theorem advance?_eq_some_iff {g next : Group α} {rank : Nat} :
    g.advance? rank = some next ↔
      ∃ before after mailbox, g.programs[rank]? = some before ∧
        stepOf? g.mailbox rank before = some (after, mailbox) ∧
        ⟨g.programs.set rank after, mailbox⟩ = next := by
  simp [advance?, Option.bind_eq_some_iff]

/-- Steps of different ranks can be taken in either order. -/
theorem advance?_comm {g left right : Group α} {one other : Nat} (distinct : one ≠ other)
    (toLeft : g.advance? one = some left) (toRight : g.advance? other = some right) :
    ∃ both, left.advance? other = some both ∧ right.advance? one = some both := by
  obtain ⟨p, nextP, restP, foundP, stepP, rfl⟩ := advance?_eq_some_iff.1 toLeft
  obtain ⟨q, nextQ, restQ, foundQ, stepQ, rfl⟩ := advance?_eq_some_iff.1 toRight
  obtain ⟨effectP, ofP, appliedP, againP⟩ := exists_effect stepP
  obtain ⟨effectQ, ofQ, appliedQ, againQ⟩ := exists_effect stepQ
  obtain ⟨rest, afterP, afterQ⟩ := Effect.commute distinct ofP ofQ appliedP appliedQ
  refine ⟨⟨(g.programs.set one nextP).set other nextQ, rest⟩, ?_, ?_⟩
  · refine advance?_eq_some_iff.2 ⟨q, nextQ, rest, ?_, againQ afterP, rfl⟩
    rw [List.getElem?_set_ne distinct, foundQ]
  · refine advance?_eq_some_iff.2 ⟨p, nextP, rest, ?_, againP afterQ, ?_⟩
    · rw [List.getElem?_set_ne distinct.symm, foundP]
    · rw [List.set_comm _ _ distinct]

/-! ## Confluence -/

theorem diamond {g left right : Group α} (toLeft : Step g left) (toRight : Step g right) :
    left = right ∨ ∃ both, Step left both ∧ Step right both := by
  obtain ⟨one, advancedOne⟩ := toLeft
  obtain ⟨other, advancedOther⟩ := toRight
  by_cases same : one = other
  · subst same
    exact .inl (Option.some.inj (advancedOne.symm.trans advancedOther))
  · obtain ⟨both, fromLeft, fromRight⟩ := advance?_comm same advancedOne advancedOther
    exact .inr ⟨both, ⟨other, fromLeft⟩, ⟨one, fromRight⟩⟩

namespace Reaches

theorem trans {g middle last : Group α} (first : Reaches g middle)
    (second : Reaches middle last) : Reaches g last := by
  induction first with
  | refl => exact second
  | step taken _ ih => exact .step taken (ih second)

/-- One step aside does not lead away from where nobody can go on. -/
theorem of_step {g next last : Group α} (toLast : Reaches g last) (stuck : last.IsStuck)
    (aside : Step g next) : Reaches next last := by
  induction toLast generalizing next with
  | refl g =>
    obtain ⟨rank, advanced⟩ := aside
    cases (stuck rank).symm.trans advanced
  | step taken toLast ih =>
    rcases diamond taken aside with rfl | ⟨both, onward, back⟩
    · exact toLast
    · exact .step back (ih stuck onward)

theorem of_isStuck {g reached last : Group α} (toLast : Reaches g last)
    (stuck : last.IsStuck) (toReached : Reaches g reached) : Reaches reached last := by
  induction toReached with
  | refl => exact toLast
  | step taken _ ih => exact ih (toLast.of_step stuck taken)

theorem eq_of_isStuck {g last : Group α} (toLast : Reaches g last) (stuck : g.IsStuck) :
    last = g := by
  cases toLast with
  | refl => rfl
  | step taken =>
    obtain ⟨rank, advanced⟩ := taken
    cases (stuck rank).symm.trans advanced

end Reaches

/-- Every schedule ends. -/
theorem acc_step (g : Group α) : Acc (fun later earlier : Group α => Step earlier later) g := by
  refine Subrelation.accessible (r := InvImage Progress programs) ?_
    (InvImage.accessible programs (progress_wellFounded.apply g.programs))
  rintro later earlier ⟨rank, advanced⟩
  exact progress_of_advance? advanced

/-! ## Settling -/

/-- The group of the ranks below `size`. -/
def ofRanks (size : Nat) (programs : Nat → Program α) : Group α :=
  ofPrograms ((List.range size).map programs)

/-- Under every schedule all ranks end, with these values and no message left behind. -/
structure Settles (size : Nat) (programs : Nat → Program α) (values : Nat → α) : Prop where
  /-- No schedule goes on forever. -/
  terminates : Acc (fun later earlier : Group α => Step earlier later) (ofRanks size programs)
  /-- Whatever was done, the end is still ahead. -/
  converges : ∀ {reached}, Reaches (ofRanks size programs) reached →
    Reaches reached (ofRanks size fun rank => .done (values rank))

theorem getElem?_ofRanks (size : Nat) (programs : Nat → Program α) (rank : Nat) :
    (ofRanks size programs).programs[rank]? =
      if rank < size then some (programs rank) else none := by
  by_cases inside : rank < size <;> simp [ofRanks, ofPrograms, inside]

theorem ofRanks_congr {size : Nat} {programs others : Nat → Program α}
    (same : ∀ rank < size, programs rank = others rank) :
    ofRanks size programs = ofRanks size others := by
  simp only [ofRanks]
  congr 1
  exact List.map_congr_left fun rank member => same rank (List.mem_range.1 member)

theorem isStuck_ofRanks_done (size : Nat) (values : Nat → α) :
    (ofRanks size fun rank => .done (values rank)).IsStuck := by
  intro rank
  by_cases inside : rank < size <;> simp [advance?, getElem?_ofRanks, inside, stepOf?]

theorem settles_iff_reaches {size : Nat} {programs : Nat → Program α} {values : Nat → α} :
    Settles size programs values ↔
      Reaches (ofRanks size programs) (ofRanks size fun rank => .done (values rank)) := by
  constructor
  · exact fun settled => settled.converges (.refl _)
  · exact fun reaches =>
      ⟨acc_step _, fun toReached => reaches.of_isStuck (isStuck_ofRanks_done size values) toReached⟩

namespace Settles

variable {size : Nat} {programs : Nat → Program α} {values : Nat → α}

/-- As long as some rank has not ended, some rank can take a step. -/
theorem progress (settled : Settles size programs values) {reached : Group α}
    (toReached : Reaches (ofRanks size programs) reached)
    (unfinished : reached ≠ ofRanks size fun rank => .done (values rank)) :
    ∃ next, Step reached next := by
  cases settled.converges toReached with
  | refl => exact absurd rfl unfinished
  | step taken => exact ⟨_, taken⟩

/-- Where no rank can take a step, all have ended with their values. -/
theorem eq_of_isStuck (settled : Settles size programs values) {last : Group α}
    (toLast : Reaches (ofRanks size programs) last) (stuck : last.IsStuck) :
    last = ofRanks size fun rank => .done (values rank) :=
  ((settled.converges toLast).eq_of_isStuck stuck).symm

/-- A group has one outcome. -/
theorem unique {others : Nat → α} (settled : Settles size programs values)
    (again : Settles size programs others) : ∀ rank < size, values rank = others rank := by
  intro rank inside
  have same := again.eq_of_isStuck (settles_iff_reaches.1 settled)
    (isStuck_ofRanks_done size values)
  have here := congrArg (·.programs[rank]?) same
  simpa [getElem?_ofRanks, inside] using here

theorem congr {others : Nat → Program α} {results : Nat → α}
    (settled : Settles size programs values)
    (samePrograms : ∀ rank < size, programs rank = others rank)
    (sameValues : ∀ rank < size, values rank = results rank) :
    Settles size others results := by
  rw [settles_iff_reaches] at settled ⊢
  rw [← ofRanks_congr samePrograms,
    ← ofRanks_congr fun rank inside => congrArg Program.done (sameValues rank inside)]
  exact settled

/-- Only what the programs are on the ranks of the group matters. -/
theorem of_eq {others : Nat → Program α}
    (same : ∀ rank < size, others rank = programs rank)
    (settled : Settles size programs values) : Settles size others values :=
  settled.congr (fun rank inside => (same rank inside).symm) fun _ _ => rfl

end Settles

end Group
end HaloVector
