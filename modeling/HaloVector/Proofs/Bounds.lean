import HaloVector.Proofs.Delivery

/-!
# Bounds

Counts and offsets are looked up by rank, and buffers are cut and overwritten where these say.
The exchanges do so with operations that have a result even out of bounds. Here each step of an
exchange comes after the requirement that every place is there which the step reads or writes;
where one is missing, the program halts.

* `Guarded.exchangeBytes_eq` and `Guarded.exchangeByRank_eq`: these are the same programs, for
  all arguments. So no place is ever missing, whatever the peers answer.
-/

namespace HaloVector

namespace Program

variable {α : Type}

/-- Goes on only if all places are there. -/
def require (places : Prop) [Decidable places] (next : Program α) : Program α :=
  if places then next else .halt .outOfBounds

theorem require_eq {places : Prop} [Decidable places] (there : places) (next : Program α) :
    require places next = next := if_pos there

end Program

/-- A layout says where the part of a rank is, and a buffer of this length holds the part. -/
def Layout.Within (l : Layout) (length rank : Nat) : Prop :=
  rank < l.counts.length ∧ rank < l.offsets.length ∧ l.offset rank + l.count rank ≤ length

instance (l : Layout) (length rank : Nat) : Decidable (l.Within length rank) :=
  inferInstanceAs (Decidable (_ ∧ _))

theorem Layout.within_of_check {l : Layout} {what : String} {size length : Nat}
    (passed : l.check what size length = .ok ()) {rank : Nat} (inside : rank < size) :
    l.Within length rank := by
  obtain ⟨rfl, offsets, fits⟩ := Layout.check_eq_ok_iff.1 passed
  exact ⟨inside, offsets ▸ inside, fits rank inside⟩

theorem Layout.within_packed {counts : List Nat} {rank : Nat} (inside : rank < counts.length) :
    (packed counts).Within (totalCount counts) rank :=
  ⟨inside, (length_displacements counts).symm ▸ inside, packed_fits inside⟩

namespace Guarded

/-- Like `HaloVector.awaitParts`, with a look at the buffer before each part is written. -/
def awaitParts (me : Nat) (incoming : Layout) :
    List (Nat × Ticket) → Attempt Bytes → Program (Attempt Bytes)
  | [], received => pure received
  | (peer, ticket) :: rest, received =>
    .require (incoming.Within received.state.length peer) do
    let received ← HaloVector.awaitParts me incoming [(peer, ticket)] received
    awaitParts me incoming rest received

/-- Like `HaloVector.exchangeBytes`, with a look at layouts and buffers before each step. -/
def exchangeBytes (c : Communicator) (sent : Bytes) (outgoing : Layout)
    (buffer : Bytes) (incoming : Layout) (tag : Tag) : Program (Attempt Bytes) :=
  let topology := c.topology
  let me := topology.rank
  match checkLayouts topology.size sent outgoing buffer incoming with
  | .error refusal => pure ⟨buffer, .error refusal⟩
  | .ok () =>
    .require (∀ peer ∈ topology.peers, incoming.Within buffer.length peer) do
    let tickets ← postReceives incoming tag topology.peers
    .require (∀ peer ∈ topology.peers, outgoing.Within sent.length peer) do
    sendParts sent outgoing tag topology.peers
    .require (outgoing.Within sent.length me ∧ incoming.Within buffer.length me) do
    let own := accept incoming me (ownPart me sent outgoing incoming) ⟨buffer, .ok ()⟩
    let received ← awaitParts me incoming tickets own
    flushParts outgoing tag topology.peers
    pure received

/-- Like `HaloVector.exchangeByRank`, with a look at the buffer before it is taken apart. -/
def exchangeByRank {α : Type} [Cell α] (c : Communicator) (lists : RankMap (List α))
    (tags : ExchangeTags) : Collective (RankMap (List α)) := do
  let topology := c.topology
  Collective.ofExcept (lists.keys.forM topology.checkRank)
  let outgoing := Layout.packed (lists.counts topology.size)
  let incoming := Layout.packed (← exchangeCounts c outgoing.counts tags.sizes)
  let sent := lists.concat topology.size
  let buffer ← exchange c sent outgoing incoming tags.data
  ExceptT.mk <| .require (∀ source < topology.size, incoming.Within buffer.length source) <|
    ExceptT.run do
      let targets := (outgoing.nonempty topology.ranks).length
      let sources := (incoming.nonempty topology.ranks).length
      Collective.log .debug <|
        s!"rank {topology.rank}: map all-to-all sent {sent.length} records " ++
        s!"to {targets} ranks, received {buffer.length} from {sources} ranks"
      pure (RankMap.ofParts incoming buffer topology.size)

theorem length_accept_peerPart {incoming : Layout} {peer : Nat} {received : Attempt Bytes}
    (within : incoming.Within received.state.length peer) (reply : Option Bytes) :
    (accept incoming peer (peerPart incoming peer reply) received).state.length =
      received.state.length := by
  obtain ⟨buffer, outcome⟩ := received
  cases outcome with
  | error e => rfl
  | ok =>
    cases reply with
    | none => rfl
    | some message =>
      by_cases whole : message.length = incoming.count peer
      · rw [peerPart_whole whole]
        exact length_writeAt (whole.symm ▸ within.2.2)
      · rw [peerPart, if_neg whole]
        rfl

theorem length_accept_ownPart {me : Nat} {sent buffer : Bytes} {outgoing incoming : Layout}
    (within : outgoing.Within sent.length me ∧ incoming.Within buffer.length me) :
    (accept incoming me (ownPart me sent outgoing incoming) ⟨buffer, .ok ()⟩).state.length =
      buffer.length := by
  unfold ownPart
  split
  · rename_i equal
    refine length_writeAt ?_
    rw [Layout.length_part within.1.2.2, equal]
    exact within.2.2.2
  · rfl

theorem awaitParts_eq {me : Nat} {incoming : Layout} {tickets : List (Nat × Ticket)}
    {received : Attempt Bytes}
    (within : ∀ item ∈ tickets, incoming.Within received.state.length item.1) :
    awaitParts me incoming tickets received =
      HaloVector.awaitParts me incoming tickets received := by
  induction tickets generalizing received with
  | nil => rfl
  | cons item rest ih =>
    obtain ⟨peer, ticket⟩ := item
    obtain ⟨here, later⟩ := List.forall_mem_cons.1 within
    rw [awaitParts, Program.require_eq here]
    refine congrArg (Program.await ticket) (funext fun reply => ?_)
    refine congrArg (Program.log _ _) (ih ?_)
    rwa [length_accept_peerPart here]

/-- There is one ticket for each peer that will send something. -/
theorem postReceives_bind_congr {α : Type} {incoming : Layout} {tag : Tag} {peers : List Nat}
    {f g : List (Nat × Ticket) → Program α}
    (same : ∀ tickets, tickets.map Prod.fst = incoming.nonempty peers → f tickets = g tickets) :
    (postReceives incoming tag peers).bind f = (postReceives incoming tag peers).bind g := by
  unfold postReceives
  generalize incoming.nonempty peers = sources at same
  induction sources generalizing f g with
  | nil => exact same [] rfl
  | cons source rest ih =>
    simp only [List.mapM_cons, Program.bind_eq, Program.bind_assoc]
    refine congrArg (Program.post _ _ _) (funext fun ticket => ?_)
    exact ih fun tickets named => same _ (congrArg (source :: ·) named)

/-- Bytes are exchanged without a look outside of any buffer. -/
theorem exchangeBytes_eq (c : Communicator) (sent : Bytes) (outgoing : Layout) (buffer : Bytes)
    (incoming : Layout) (tag : Tag) :
    exchangeBytes c sent outgoing buffer incoming tag =
      HaloVector.exchangeBytes c sent outgoing buffer incoming tag := by
  unfold exchangeBytes HaloVector.exchangeBytes
  dsimp only
  cases fitting : checkLayouts c.topology.size sent outgoing buffer incoming with
  | error refusal => rfl
  | ok =>
    obtain ⟨sends, receives⟩ := checkLayouts_eq_ok_iff.1 fitting
    have gives : ∀ rank < c.topology.size, outgoing.Within sent.length rank :=
      fun rank => Layout.within_of_check sends
    have takes : ∀ rank < c.topology.size, incoming.Within buffer.length rank :=
      fun rank => Layout.within_of_check receives
    have others : ∀ peer ∈ c.topology.peers, peer < c.topology.size :=
      fun peer member => (Topology.mem_peers.1 member).1
    have mine := And.intro (gives _ c.isMember_topology) (takes _ c.isMember_topology)
    dsimp only
    rw [Program.require_eq fun peer member => takes peer (others peer member)]
    refine postReceives_bind_congr fun tickets named => ?_
    rw [Program.require_eq fun peer member => gives peer (others peer member)]
    refine congrArg (Program.bind _) (funext fun _ => ?_)
    rw [Program.require_eq mine, awaitParts_eq fun item member => ?_]
    rw [length_accept_ownPart mine]
    have awaited := named ▸ List.mem_map_of_mem (f := Prod.fst) member
    exact takes item.1 (Group.mem_nonempty_peers.1 awaited).1

theorem exchange_run {α : Type} [Cell α] (c : Communicator) (sent : List α)
    (outgoing incoming : Layout) (tag : Tag) :
    (exchange c sent outgoing incoming tag).run =
      (HaloVector.exchangeBytes c (Cell.encodeAll sent) (outgoing.scale (Cell.width α))
        (List.replicate (incoming.extent * Cell.width α) 0) (incoming.scale (Cell.width α))
        tag).bind fun received =>
          .done (received.outcome.map fun _ => Cell.decodeAll incoming.extent received.state) := by
  unfold exchange
  rw [Collective.run_bind]
  show Program.bind (Program.bind _ _) _ = _
  rw [Program.bind_assoc]
  refine congrArg (Program.bind _) (funext fun received => ?_)
  obtain ⟨bytes, outcome⟩ := received
  cases outcome <;> rfl

/-- What follows an exchange has to do only with as many cells as are expected. -/
theorem exchange_run_congr {α β : Type} [Cell α] {c : Communicator} {sent : List α}
    {outgoing incoming : Layout} {tag : Tag} {f g : Except VectorError (List α) → Program β}
    (refused : ∀ e, f (.error e) = g (.error e))
    (same : ∀ received, received.length = incoming.extent → f (.ok received) = g (.ok received)) :
    (exchange c sent outgoing incoming tag).run.bind f =
      (exchange c sent outgoing incoming tag).run.bind g := by
  rw [exchange_run, Program.bind_assoc, Program.bind_assoc]
  refine congrArg (Program.bind _) (funext fun attempt => ?_)
  obtain ⟨bytes, outcome⟩ := attempt
  cases outcome with
  | error e => exact refused e
  | ok => exact same _ (Cell.length_decodeAll _ _)

theorem exchange_bind_congr {α β : Type} [Cell α] {c : Communicator} {sent : List α}
    {outgoing incoming : Layout} {tag : Tag} {f g : List α → Collective β}
    (same : ∀ received, received.length = incoming.extent → f received = g received) :
    exchange c sent outgoing incoming tag >>= f = exchange c sent outgoing incoming tag >>= g := by
  apply ExceptT.ext
  rw [Collective.run_bind, Collective.run_bind]
  exact exchange_run_congr (fun _ => rfl) fun received full =>
    congrArg ExceptT.run (same received full)

theorem exchangeCounts_bind_congr {β : Type} {c : Communicator} {counts : List Nat} {tag : Tag}
    {f g : List Nat → Collective β}
    (same : counts.length = c.size →
      ∀ received, received.length = c.size → f received = g received) :
    exchangeCounts c counts tag >>= f = exchangeCounts c counts tag >>= g := by
  unfold exchangeCounts
  by_cases whole : counts.length = c.size
  · simp only [whole, ne_eq, not_true_eq_false, if_false, bind_assoc, pure_bind]
    refine exchange_bind_congr fun received filled => same whole _ ?_
    rw [List.length_map, filled, Layout.uniform_eq_packed, Layout.extent_packed,
      totalCount_replicate, Nat.mul_one]
  · simp only [whole, ne_eq, not_false_eq_true, if_true]
    rfl

/-- Lists by rank are taken out of what has come without a look outside of it. -/
theorem exchangeByRank_eq {α : Type} [Cell α] (c : Communicator) (lists : RankMap (List α))
    (tags : ExchangeTags) :
    exchangeByRank c lists tags = HaloVector.exchangeByRank c lists tags := by
  unfold exchangeByRank HaloVector.exchangeByRank
  refine congrArg (_ >>= ·) (funext fun _ => ?_)
  refine exchangeCounts_bind_congr fun whole counts known => ?_
  refine exchange_bind_congr fun buffer full => ?_
  have sized : counts.length = c.topology.size :=
    known.trans (whole.symm.trans (RankMap.length_counts _ _))
  rw [Program.require_eq fun source inside => ?_]
  · rfl
  · rw [full, Layout.extent_packed]
    exact Layout.within_packed (sized ▸ inside)

end Guarded
end HaloVector
