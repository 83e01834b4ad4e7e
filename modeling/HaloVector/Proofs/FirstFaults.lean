import Mathlib.Data.List.TakeWhile
import HaloVector.Proofs.Slices
import HaloVector.Proofs.Transcripts

/-!
# First faults

A rank that exchanges parts waits for all of them, but only the first fault counts: that of its
own part, or else that of the lowest faulty peer. What came before it is in the buffer, and
nothing of what came after it.

* `Fault` says what is wrong with the answer of one peer, and `LowestFault` which of several
  faults counts.
* `judged_acceptAll` and `state_acceptAll` say what the answers come to.
* `exchange_reports_first_fault` is the whole of it, over any transport.
-/

namespace HaloVector

/-! ## Answers of peers -/

/-- The answer is a message of this length. -/
def Whole (length : Nat) (reply : Option Bytes) : Prop := reply.map List.length = some length

instance (length : Nat) (reply : Option Bytes) : Decidable (Whole length reply) :=
  inferInstanceAs (Decidable (_ = _))

/-- What there is to report of a peer that was to send a message of some length. -/
inductive Fault (peer length : Nat) : Option Bytes → VectorError → Prop
  | size {data : Bytes} (other : data.length ≠ length) :
      Fault peer length (some data) (.bufferSizeMismatch peer length data.length)
  | silent : Fault peer length none (.commError peer "no data received (wait returned None)")

/-- What there is to report of the lowest one of some peers whose answer is not whole. -/
def LowestFault (length : Nat → Nat) (reply : Nat → Option Bytes) (peers : List Nat)
    (e : VectorError) : Prop :=
  ∃ peer ∈ peers, Fault peer (length peer) (reply peer) e ∧
    ∀ lower ∈ peers, lower < peer → Whole (length lower) (reply lower)

/-- The outcome is an error exactly if the answer of some peer is not whole, and then that of the
lowest such peer. -/
structure Judged {α : Type} (outcome : Except VectorError α) (length : Nat → Nat)
    (reply : Nat → Option Bytes) (peers : List Nat) : Prop where
  ok_iff : (∃ value, outcome = .ok value) ↔ ∀ peer ∈ peers, Whole (length peer) (reply peer)
  error_iff : ∀ e, outcome = .error e ↔ LowestFault length reply peers e

variable {peer : Nat} {reply : Nat → Option Bytes} {length : Nat → Nat} {peers : List Nat}

theorem whole_iff {size : Nat} {answer : Option Bytes} :
    Whole size answer ↔ ∃ data, answer = some data ∧ data.length = size := Option.map_eq_some_iff

theorem length_of_whole {size : Nat} {answer : Option Bytes} (whole : Whole size answer) :
    (answer.getD []).length = size := by
  obtain ⟨data, rfl, rfl⟩ := whole_iff.1 whole
  rfl

theorem Fault.not_whole {size : Nat} {answer : Option Bytes} {e : VectorError}
    (fault : Fault peer size answer e) : ¬Whole size answer := by
  cases fault with
  | size other => exact fun whole => other (Option.some.inj whole)
  | silent => exact nofun

theorem exists_fault (peer : Nat) {size : Nat} {answer : Option Bytes}
    (partial' : ¬Whole size answer) : ∃ e, Fault peer size answer e := by
  cases answer with
  | none => exact ⟨_, .silent⟩
  | some data => exact ⟨_, .size fun same => partial' (congrArg some same)⟩

theorem Fault.unique {size : Nat} {answer : Option Bytes} {one other : VectorError}
    (this : Fault peer size answer one) (that : Fault peer size answer other) : one = other := by
  cases this <;> cases that <;> rfl

/-- A peer with a whole answer is passed over. -/
theorem lowestFault_cons_of_whole {e : VectorError}
    (whole : Whole (length peer) (reply peer)) :
    LowestFault length reply (peer :: peers) e ↔ LowestFault length reply peers e := by
  constructor
  · rintro ⟨faulty, member, fault, before⟩
    rcases List.mem_cons.1 member with rfl | later
    · exact absurd whole fault.not_whole
    · exact ⟨faulty, later, fault, fun lower present => before lower (.tail _ present)⟩
  · rintro ⟨faulty, member, fault, before⟩
    exact ⟨faulty, .tail _ member, fault, List.forall_mem_cons.2 ⟨fun _ => whole, before⟩⟩

/-- Of the lowest peer any fault counts. -/
theorem lowestFault_cons_of_fault {e found : VectorError}
    (ascending : ∀ other ∈ peers, peer < other)
    (fault : Fault peer (length peer) (reply peer) found) :
    LowestFault length reply (peer :: peers) e ↔ found = e := by
  constructor
  · rintro ⟨faulty, member, other, before⟩
    rcases List.mem_cons.1 member with rfl | later
    · exact fault.unique other
    · exact absurd (before peer List.mem_cons_self (ascending faulty later)) fault.not_whole
  · rintro rfl
    refine ⟨peer, List.mem_cons_self, fault, fun lower member below => ?_⟩
    rcases List.mem_cons.1 member with rfl | later
    · exact absurd below (Nat.lt_irrefl _)
    · exact absurd below (Nat.lt_asymm (ascending lower later))

theorem judged_nil {α : Type} (value : α) : Judged (.ok value) length reply [] where
  ok_iff := ⟨fun _ => nofun, fun _ => ⟨value, rfl⟩⟩
  error_iff := fun _ => ⟨nofun, fun ⟨_, member, _⟩ => absurd member List.not_mem_nil⟩

theorem Judged.cons_of_whole {α : Type} {outcome : Except VectorError α}
    (whole : Whole (length peer) (reply peer))
    (judged : Judged outcome length reply peers) : Judged outcome length reply (peer :: peers) where
  ok_iff := judged.ok_iff.trans
    ⟨fun others => List.forall_mem_cons.2 ⟨whole, others⟩,
      fun all => (List.forall_mem_cons.1 all).2⟩
  error_iff := fun e =>
    (judged.error_iff e).trans (lowestFault_cons_of_whole whole).symm

theorem judged_cons_of_fault {α : Type} {e : VectorError}
    (ascending : ∀ other ∈ peers, peer < other)
    (fault : Fault peer (length peer) (reply peer) e) :
    Judged (.error e : Except VectorError α) length reply (peer :: peers) where
  ok_iff := ⟨nofun, fun all => absurd (all peer List.mem_cons_self) fault.not_whole⟩
  error_iff := fun _ => ⟨fun same => (lowestFault_cons_of_fault ascending fault).2
    (Except.error.inj same), fun lowest => congrArg _
      ((lowestFault_cons_of_fault ascending fault).1 lowest)⟩

theorem Judged.map {α β : Type} {outcome : Except VectorError α}
    (judged : Judged outcome length reply peers) (f : α → β) :
    Judged (outcome.map f) length reply peers where
  ok_iff := by
    rw [← judged.ok_iff]
    cases outcome with
    | error e => exact ⟨nofun, nofun⟩
    | ok value => exact ⟨fun _ => ⟨value, rfl⟩, fun _ => ⟨f value, rfl⟩⟩
  error_iff := fun e => by
    rw [← judged.error_iff]
    cases outcome with
    | error other => exact ⟨fun same => congrArg _ (Except.error.inj same),
        fun same => congrArg _ (Except.error.inj same)⟩
    | ok value => exact ⟨nofun, nofun⟩

theorem LowestFault.congr {long : Nat → Nat} {e : VectorError}
    (lengths : ∀ peer ∈ peers, length peer = long peer)
    (lowest : LowestFault length reply peers e) : LowestFault long reply peers e := by
  obtain ⟨peer, member, fault, before⟩ := lowest
  refine ⟨peer, member, lengths peer member ▸ fault, fun lower present below => ?_⟩
  exact lengths lower present ▸ before lower present below

theorem Judged.congr {α : Type} {outcome : Except VectorError α} {long : Nat → Nat}
    (judged : Judged outcome length reply peers)
    (lengths : ∀ peer ∈ peers, length peer = long peer) : Judged outcome long reply peers where
  ok_iff := judged.ok_iff.trans (forall₂_congr fun peer member => by rw [lengths peer member])
  error_iff := fun e => (judged.error_iff e).trans
    ⟨.congr lengths, .congr fun peer member => (lengths peer member).symm⟩

/-! ## Parts that are taken over -/

variable {incoming : Layout}

theorem peerPart_of_whole {answer : Option Bytes} (whole : Whole (incoming.count peer) answer) :
    peerPart incoming peer answer = .ok (answer.getD []) := by
  obtain ⟨data, rfl, full⟩ := whole_iff.1 whole
  exact peerPart_whole full

theorem Fault.peerPart_eq {answer : Option Bytes} {e : VectorError}
    (fault : Fault peer (incoming.count peer) answer e) :
    peerPart incoming peer answer = .error e := by
  cases fault with
  | size other => exact if_neg other
  | silent => rfl

/-- After a fault nothing is taken over. -/
theorem acceptAll_error (buffer : Bytes) (e : VectorError) :
    acceptAll incoming reply peers ⟨buffer, .error e⟩ = ⟨buffer, .error e⟩ := by
  induction peers with
  | nil => rfl
  | cons peer rest ih => exact ih

theorem acceptAll_cons_of_whole (whole : Whole (incoming.count peer) (reply peer))
    (buffer : Bytes) :
    acceptAll incoming reply (peer :: peers) ⟨buffer, .ok ()⟩ =
      acceptAll incoming reply peers
        ⟨writeAt buffer (incoming.offset peer) ((reply peer).getD []), .ok ()⟩ := by
  rw [acceptAll, List.foldl_cons, peerPart_of_whole whole]
  rfl

theorem acceptAll_cons_of_fault {e : VectorError}
    (fault : Fault peer (incoming.count peer) (reply peer) e) (buffer : Bytes) :
    acceptAll incoming reply (peer :: peers) ⟨buffer, .ok ()⟩ = ⟨buffer, .error e⟩ := by
  rw [acceptAll, List.foldl_cons, fault.peerPart_eq]
  exact acceptAll_error buffer e

theorem judged_acceptAll (ascending : peers.Pairwise (· < ·)) (buffer : Bytes) :
    Judged (acceptAll incoming reply peers ⟨buffer, .ok ()⟩).outcome incoming.count reply
      peers := by
  induction peers generalizing buffer with
  | nil => exact judged_nil ()
  | cons peer rest ih =>
    obtain ⟨below, later⟩ := List.pairwise_cons.1 ascending
    by_cases whole : Whole (incoming.count peer) (reply peer)
    · rw [acceptAll_cons_of_whole whole]
      exact (ih later _).cons_of_whole whole
    · obtain ⟨e, fault⟩ := exists_fault peer whole
      rw [acceptAll_cons_of_fault fault]
      exact judged_cons_of_fault below fault

/-- The peers whose parts come before the first fault. -/
def wholePrefix (incoming : Layout) (reply : Nat → Option Bytes) (peers : List Nat) : List Nat :=
  peers.takeWhile fun peer => Whole (incoming.count peer) (reply peer)

theorem whole_of_mem_wholePrefix (member : peer ∈ wholePrefix incoming reply peers) :
    Whole (incoming.count peer) (reply peer) := by
  have kept := List.mem_takeWhile_imp member
  exact of_decide_eq_true kept

theorem mem_of_mem_wholePrefix (member : peer ∈ wholePrefix incoming reply peers) :
    peer ∈ peers := (List.takeWhile_sublist _).mem member

theorem wholePrefix_cons_of_whole (whole : Whole (incoming.count peer) (reply peer)) :
    wholePrefix incoming reply (peer :: peers) = peer :: wholePrefix incoming reply peers :=
  List.takeWhile_cons_of_pos (decide_eq_true whole)

theorem wholePrefix_cons_of_fault {e : VectorError}
    (fault : Fault peer (incoming.count peer) (reply peer) e) :
    wholePrefix incoming reply (peer :: peers) = [] :=
  List.takeWhile_cons_of_neg (mt of_decide_eq_true fault.not_whole)

theorem state_acceptAll (buffer : Bytes) :
    (acceptAll incoming reply peers ⟨buffer, .ok ()⟩).state =
      incoming.writeParts (fun peer => (reply peer).getD []) (wholePrefix incoming reply peers)
        buffer := by
  induction peers generalizing buffer with
  | nil => rfl
  | cons peer rest ih =>
    by_cases whole : Whole (incoming.count peer) (reply peer)
    · rw [acceptAll_cons_of_whole whole, ih, wholePrefix_cons_of_whole whole]
      rfl
    · obtain ⟨e, fault⟩ := exists_fault peer whole
      rw [acceptAll_cons_of_fault fault, wholePrefix_cons_of_fault fault]
      rfl

/-! ## Exchanges -/

section exchange

variable (c : Communicator) (sent : Bytes) (outgoing : Layout) (buffer : Bytes)
  (incoming : Layout) (reply : Nat → Option Bytes)

/-- What a rank has from each rank: its own part, or what the peer has answered. -/
def contribution (rank : Nat) : Bytes :=
  if rank = c.topology.rank then outgoing.part sent rank else (reply rank).getD []

/-- The ranks whose parts come before the first fault. -/
def takenOver : List Nat :=
  let me := c.topology.rank
  if outgoing.count me = incoming.count me
  then me :: wholePrefix incoming reply (incoming.nonempty c.topology.peers) else []

/-- What is wrong with the rank's own part, or else with that of the lowest faulty peer. -/
def FirstPartFault (e : VectorError) : Prop :=
  let me := c.topology.rank
  (outgoing.count me ≠ incoming.count me ∧
    e = .bufferSizeMismatch me (incoming.count me) (outgoing.count me)) ∨
  (outgoing.count me = incoming.count me ∧
    LowestFault incoming.count reply (incoming.nonempty c.topology.peers) e)

variable {c sent outgoing buffer incoming reply}

theorem tally_of_unequal
    (unequal : outgoing.count c.topology.rank ≠ incoming.count c.topology.rank) :
    tally c sent outgoing buffer incoming reply = ⟨buffer, .error (.bufferSizeMismatch
      c.topology.rank (incoming.count c.topology.rank) (outgoing.count c.topology.rank))⟩ := by
  simp only [tally, ownPart, if_neg unequal]
  exact acceptAll_error buffer _

theorem tally_of_equal
    (equal : outgoing.count c.topology.rank = incoming.count c.topology.rank) :
    tally c sent outgoing buffer incoming reply =
      acceptAll incoming reply (incoming.nonempty c.topology.peers)
        ⟨writeAt buffer (incoming.offset c.topology.rank) (outgoing.part sent c.topology.rank),
          .ok ()⟩ := by
  simp only [tally, ownPart, if_pos equal]
  rfl

theorem judged_tally
    (equal : outgoing.count c.topology.rank = incoming.count c.topology.rank) :
    Judged (tally c sent outgoing buffer incoming reply).outcome incoming.count reply
      (incoming.nonempty c.topology.peers) := by
  rw [tally_of_equal equal]
  exact judged_acceptAll (peersWith_nonempty c.topology incoming).ascending _

theorem tally_eq_ok_iff :
    (tally c sent outgoing buffer incoming reply).outcome = .ok () ↔
      outgoing.count c.topology.rank = incoming.count c.topology.rank ∧
        ∀ peer ∈ incoming.nonempty c.topology.peers,
          Whole (incoming.count peer) (reply peer) := by
  by_cases equal : outgoing.count c.topology.rank = incoming.count c.topology.rank
  · have judged : Judged (tally c sent outgoing buffer incoming reply).outcome _ _ _ :=
      judged_tally equal
    rw [← judged.ok_iff, Unique.exists_iff]
    exact (and_iff_right equal).symm
  · rw [tally_of_unequal equal]
    exact ⟨nofun, fun passed => absurd passed.1 equal⟩

theorem tally_eq_error_iff {e : VectorError} :
    (tally c sent outgoing buffer incoming reply).outcome = .error e ↔
      FirstPartFault c outgoing incoming reply e := by
  unfold FirstPartFault
  by_cases equal : outgoing.count c.topology.rank = incoming.count c.topology.rank
  · have judged : Judged (tally c sent outgoing buffer incoming reply).outcome _ _ _ :=
      judged_tally equal
    rw [judged.error_iff]
    simp only [equal, ne_eq, not_true_eq_false, false_and, true_and, false_or]
  · rw [tally_of_unequal equal]
    simp only [equal, ne_eq, not_false_eq_true, true_and, false_and, or_false,
      Except.error.injEq]
    exact eq_comm

theorem contribution_self :
    contribution c sent outgoing reply c.topology.rank = outgoing.part sent c.topology.rank :=
  if_pos rfl

theorem contribution_of_ne {rank : Nat} (other : rank ≠ c.topology.rank) :
    contribution c sent outgoing reply rank = (reply rank).getD [] := if_neg other

theorem state_tally :
    (tally c sent outgoing buffer incoming reply).state =
      incoming.writeParts (contribution c sent outgoing reply)
        (takenOver c outgoing incoming reply) buffer := by
  by_cases equal : outgoing.count c.topology.rank = incoming.count c.topology.rank
  · rw [tally_of_equal equal, state_acceptAll, takenOver, if_pos equal, ← contribution_self]
    refine (Layout.writeParts_congr fun peer member => ?_).symm
    have away := (Group.mem_nonempty_peers.1 (mem_of_mem_wholePrefix member)).2.1
    exact contribution_of_ne away
  · rw [tally_of_unequal equal, takenOver, if_neg equal]
    rfl

/-- Each part that is taken over fills its place in the buffer. -/
theorem sized_of_takenOver
    (sends : outgoing.check "all-to-all send layout" c.topology.size sent.length = .ok ())
    {rank : Nat} (member : rank ∈ takenOver c outgoing incoming reply) :
    rank < c.topology.size ∧
      (contribution c sent outgoing reply rank).length = incoming.count rank := by
  unfold takenOver at member
  dsimp only at member
  split at member
  · rename_i equal
    rcases List.mem_cons.1 member with rfl | peer
    · rw [contribution_self, Layout.length_part (Layout.fits_of_check sends c.isMember_topology)]
      exact ⟨c.isMember_topology, equal⟩
    · obtain ⟨inside, away, -⟩ := Group.mem_nonempty_peers.1 (mem_of_mem_wholePrefix peer)
      rw [contribution_of_ne away]
      exact ⟨inside, length_of_whole (whole_of_mem_wholePrefix peer)⟩
  · cases member

/-- Without fault all parts are taken over. -/
theorem takenOver_of_whole
    (equal : outgoing.count c.topology.rank = incoming.count c.topology.rank)
    (whole : ∀ peer ∈ incoming.nonempty c.topology.peers,
      Whole (incoming.count peer) (reply peer)) :
    takenOver c outgoing incoming reply =
      Group.contributors c.topology.size incoming c.topology.rank := by
  have all : wholePrefix incoming reply (incoming.nonempty c.topology.peers) =
      incoming.nonempty c.topology.peers :=
    List.takeWhile_eq_self_iff.2 fun peer member => decide_eq_true (whole peer member)
  rw [takenOver, if_pos equal, all]
  rfl

theorem length_state_tally
    (sends : outgoing.check "all-to-all send layout" c.topology.size sent.length = .ok ())
    (receives : incoming.check "all-to-all recv layout" c.topology.size buffer.length = .ok ()) :
    (tally c sent outgoing buffer incoming reply).state.length = buffer.length := by
  rw [state_tally]
  exact Layout.length_writeParts (fun _ member => (sized_of_takenOver sends member).2)
    fun _ member => Layout.fits_of_check receives (sized_of_takenOver sends member).1

/-- Without fault, and if no two parts overlap, each part is what its rank has contributed. -/
theorem part_tally
    (sends : outgoing.check "all-to-all send layout" c.topology.size sent.length = .ok ())
    (receives : incoming.check "all-to-all recv layout" c.topology.size buffer.length = .ok ())
    (apart : ∀ one < c.topology.size, ∀ other < c.topology.size, one ≠ other →
      incoming.Apart one other)
    (passed : (tally c sent outgoing buffer incoming reply).outcome = .ok ())
    {rank : Nat} (inside : rank < c.topology.size) (some' : 0 < incoming.count rank) :
    incoming.part (tally c sent outgoing buffer incoming reply).state rank =
      contribution c sent outgoing reply rank := by
  obtain ⟨equal, whole⟩ := tally_eq_ok_iff.1 passed
  have taken : rank ∈ takenOver c outgoing incoming reply := by
    rw [takenOver_of_whole equal whole]
    exact Group.mem_contributors_of_pos inside some'
  rw [state_tally, Layout.part_writeParts (fun _ member => (sized_of_takenOver sends member).2)
    (fun _ member => Layout.fits_of_check receives (sized_of_takenOver sends member).1)
    (fun other member => apart other (sized_of_takenOver sends member).1 rank inside), if_pos taken]

variable (c sent outgoing buffer incoming) in
/-- Over any transport an exchange ends well exactly if the rank's own part fits and each peer
that was to send something has sent a message of the right length. Else it reports the first
fault, first the rank's own and then by increasing peers. The parts before that fault have been
written one after the other, and nothing else has changed in the buffer. -/
theorem exchange_reports_first_fault
    (sends : outgoing.check "all-to-all send layout" c.topology.size sent.length = .ok ())
    (receives : incoming.check "all-to-all recv layout" c.topology.size buffer.length = .ok ())
    (tag : Tag) {σ : Type} (t : Transport σ) (s : σ) :
    let me := c.topology.rank
    let p := exchangeBytes c sent outgoing buffer incoming tag
    ∃ (received : Attempt Bytes) (answers : Answers),
      (p.runOver t s).1 = .finished received ∧
      p.usesOver t s = roundUses (incoming.nonempty c.topology.peers)
        (outgoing.nonempty c.topology.peers) tag incoming.count (outgoing.part sent) answers ∧
      (received.outcome = .ok () ↔ outgoing.count me = incoming.count me ∧
        ∀ peer < c.topology.size, peer ≠ me → 0 < incoming.count peer →
          ∃ data, answers.reply peer = some data ∧ data.length = incoming.count peer) ∧
      (∀ e, received.outcome = .error e ↔ FirstPartFault c outgoing incoming answers.reply e) ∧
      received.state = incoming.writeParts (contribution c sent outgoing answers.reply)
        (takenOver c outgoing incoming answers.reply) buffer ∧
      received.state.length = buffer.length ∧
      ∀ index, (∀ rank < c.topology.size, ¬incoming.Holds rank index) →
        received.state[index]? = buffer[index]? := by
  intro me p
  obtain ⟨received, ended, answers, uses, rfl⟩ :=
    (conducts_exchangeBytes c tag (checkLayouts_eq_ok_iff.2 ⟨sends, receives⟩)).runOver t s
  have sized (rank : Nat) (member : rank ∈ takenOver c outgoing incoming answers.reply) :=
    (sized_of_takenOver sends member).2
  have fits : ∀ rank ∈ takenOver c outgoing incoming answers.reply,
      incoming.offset rank + incoming.count rank ≤ buffer.length := fun rank member =>
    Layout.fits_of_check receives (sized_of_takenOver sends member).1
  refine ⟨_, answers, ended, uses, tally_eq_ok_iff.trans (and_congr_right fun _ => ?_),
    fun e => tally_eq_error_iff, state_tally, length_state_tally sends receives,
    fun index outside => ?_⟩
  · simp only [Group.mem_nonempty_peers, and_imp, whole_iff]
    rfl
  · rw [state_tally]
    exact Layout.getElem?_writeParts_of_not_holds sized fits fun rank member =>
      outside rank (sized_of_takenOver sends member).1

end exchange

/-- A rank gets its own part and two bytes of the first rank that lie over it, then too few bytes
of the third one, and then the right number of the fourth. -/
def overlappingParts : Layout := ⟨[2, 1, 2, 1], [0, 1, 3, 5]⟩

def shortReplies : Script :=
  .ofReplies [⟨0, default, some [5, 6]⟩, ⟨2, default, some [7]⟩, ⟨3, default, some [8]⟩]

theorem exchange_reports_first_fault_short :
    let outgoing : Layout := ⟨[1, 1, 0, 0], [0, 1, 0, 0]⟩
    let p := exchangeBytes (.member 1 4) [1, 2] outgoing [9, 9, 9, 9, 9, 9, 9] overlappingParts
      default
    outgoing.check "all-to-all send layout" 4 2 = .ok () ∧
    overlappingParts.check "all-to-all recv layout" 4 7 = .ok () ∧
    (p.runOver Script.transport shortReplies).1 =
      .finished ⟨[5, 6, 9, 9, 9, 9, 9], .error (.bufferSizeMismatch 2 2 1)⟩ ∧
    ∃ answers : Answers, FirstPartFault (.member 1 4) outgoing overlappingParts answers.reply
        (.bufferSizeMismatch 2 2 1) ∧
      [5, 6, 9, 9, 9, 9, 9] = overlappingParts.writeParts
        (contribution (.member 1 4) [1, 2] outgoing answers.reply)
        (takenOver (.member 1 4) outgoing overlappingParts answers.reply)
        [9, 9, 9, 9, 9, 9, 9] := by
  intro outgoing p
  have ran : (p.runOver Script.transport shortReplies).1 =
      .finished ⟨[5, 6, 9, 9, 9, 9, 9], .error (.bufferSizeMismatch 2 2 1)⟩ := rfl
  obtain ⟨received, answers, ended, -, -, faulty, filled, -⟩ :=
    exchange_reports_first_fault (.member 1 4) [1, 2] outgoing [9, 9, 9, 9, 9, 9, 9]
      overlappingParts (by decide) (by decide) default Script.transport shortReplies
  cases ended.symm.trans ran
  exact ⟨by decide, by decide, ran, answers, (faulty _).1 rfl, filled⟩

end HaloVector
